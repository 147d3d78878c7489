import Jos.Kern.Mpentry
import Jos.Library.Run
import Jos.Processors.Startup

/-!
# Every processor gets its own stack

`boot_aps` tells a processor which stack to take by a variable that all of them share, and goes on
to the next one when the element of `cpus` says that the processor has started. A processor takes
its interrupts at any time, loads the variable later, and stores `CPU_STARTED` later still.

What is on its way to a processor, together with what `boot_aps` has not sent yet, is always the
end of the same four interrupts, and how many are missing tells where the processor is
(`ApPhase`). So a processor that has taken its INIT and not stored `CPU_STARTED` is the one that
`boot_aps` is at, and while it is, the variable does not change (`HandshakeInv.current`). This
rests on the numbers that `mp_init` gives, and on the element of the boot processor being the only
one that is marked from the beginning.
-/

namespace Jos

/-! ### What is asked of it -/

/-- The processor runs on the stack `esp`. -/
def ApState.On (esp : Word) (ap : ApState) : Prop :=
  ap = .setup esp ∨ ap = .started esp ∨ ap = .panicked esp

/-- The processor has taken an INIT, and has not stored `CPU_STARTED`. -/
def ApState.Underway : ApState → Prop
  | .waiting | .entry _ | .setup _ | .panicked _ => True
  | _ => False

/-- Processor `a` is one that `boot_aps` starts. -/
def Starts (me : ℕ) (mp : MpState) (a : Byte) : Prop := a.toNat < mp.ncpu ∧ a.toNat ≠ me

/-- What holds while the processors are started. -/
structure ApsBoot (kstacks : Word) (me : ℕ) (mp : MpState) (s : ApBoot) : Prop where
  /-- A processor runs on the stack with its number. -/
  stack : ∀ a esp, (s.ap a).On esp → Starts me mp a ∧ esp = percpuKstackTop kstacks a.toNat
  /-- The stacks of two processors have no byte in common. -/
  apart : ∀ a b esp esp', a ≠ b → (s.ap a).On esp → (s.ap b).On esp' →
    ∀ i < kstksize, ∀ j < kstksize,
      esp - BitVec.ofNat 32 (i + 1) ≠ esp' - BitVec.ofNat 32 (j + 1)
  /-- A processor without a stack runs `mpentry.S`. -/
  code : ∀ a addr, s.ap a = .entry addr → addr = mpentryPaddr
  /-- They are started one at a time. -/
  single : ∀ a b, (s.ap a).Underway → (s.ap b).Underway → a = b
  /-- No other processor is touched. -/
  others : ∀ a, ¬Starts me mp a → s.ap a = .parked
  /-- When `boot_aps` returns, all of them have started, and the local APIC was told what it is
  told when each processor answers at once. -/
  returned : s.bsp = .returned →
    (∀ a, Starts me mp a → s.ap a = .started (percpuKstackTop kstacks a.toNat)) ∧
      s.writes = bootAps (fun _ => true) me mp

/-! ### What `lapic_startap` sends -/

/-- The interrupts that writes to the local APIC send, with their destinations, when `ICRHI` is
`high`. -/
def sends : Word → List LapicWrite → List (Byte × Ipi)
  | _, [] => []
  | high, w :: ws =>
    if w.1 = icrhi then sends w.2 ws
    else if w.1 = icrlo then
      (ipiOf w.2).toList.map (fun ipi => ((high >>> 24).setWidth 8, ipi)) ++ sends high ws
    else sends high ws

/-- The interrupts that start a processor. -/
def startIpis : List Ipi := [.init, .deassert, .startup 7#8, .startup 7#8]

theorem sends_lapicStartap (high : Word) (id : Byte) :
    sends high (lapicStartap id mpentryPaddr) = startIpis.map (id, ·) := by
  -- the destination is in the upper byte of `ICRHI`, which is written first
  have hid : ((id.setWidth 32 <<< 24 : Word) >>> 24).setWidth 8 = id := by
    revert id
    decide
  have hne : ¬icrlo = icrhi := by decide
  -- the page of the code is the lower byte of a startup interrupt
  have hinit : ipiOf (icrInit ||| icrLevel ||| icrAssert) = some .init := by decide
  have hdeassert : ipiOf (icrInit ||| icrLevel) = some .deassert := by decide
  have hstartup : ipiOf (icrStartup ||| mpentryPaddr >>> 12) = some (.startup 7#8) := by decide
  simp [lapicStartap, sends, hid, hne, hinit, hdeassert, hstartup, startIpis]

/-- One write: what it sends is on its way. -/
theorem lapicw_inFlight (s : ApBoot) (w : LapicWrite) (ws : List LapicWrite) :
    ∃ now, sends s.highWord (w :: ws) = now ++ sends (s.lapicw w).highWord ws ∧
      ∀ a, (s.lapicw w).inFlight a =
        s.inFlight a ++ (now.filter fun x => decide (x.1 = a)).map Prod.snd := by
  unfold ApBoot.lapicw
  rw [sends]
  by_cases hhi : w.1 = icrhi
  · -- `ICRHI` only keeps the destination
    rw [if_pos hhi, if_pos hhi]
    exact ⟨[], rfl, fun a => (List.append_nil _).symm⟩
  rw [if_neg hhi, if_neg hhi]
  by_cases hlo : w.1 = icrlo
  · -- `ICRLO` sends to the destination that `ICRHI` has
    rw [if_pos hlo, if_pos hlo]
    refine ⟨_, rfl, fun a => ?_⟩
    dsimp only
    by_cases ha : a = (s.highWord >>> 24).setWidth 8
    · subst ha
      rw [Function.update_self]
      congr 1
      cases ipiOf w.2 with
      | none => rfl
      | some ipi => simp
    · rw [Function.update_of_ne ha]
      cases ipiOf w.2 with
      | none => simp
      | some ipi => simp [Ne.symm ha]
  · -- no other register sends anything
    rw [if_neg hlo, if_neg hlo]
    exact ⟨[], rfl, fun a => (List.append_nil _).symm⟩

/-- The rest of the state is as it was. -/
theorem lapicw_fields (s : ApBoot) (w : LapicWrite) :
    (s.lapicw w).mpentryKstack = s.mpentryKstack ∧ (s.lapicw w).cpuStatus = s.cpuStatus ∧
      (s.lapicw w).writes = s.writes ++ [w] ∧ (s.lapicw w).ap = s.ap := by
  unfold ApBoot.lapicw
  split_ifs <;> exact ⟨rfl, rfl, rfl, rfl⟩

/-! ### The invariant -/

/-- How many elements of `cpus` `boot_aps` has come to. -/
def BspPc.begun (ncpu : ℕ) : BspPc → ℕ
  | .next c => c
  | .sending c _ => c + 1
  | .waiting c => c + 1
  | .returned => ncpu

/-- The element that it is at. -/
def BspPc.current : BspPc → Option ℕ
  | .sending c _ => some c
  | .waiting c => some c
  | _ => none

/-- The writes to the local APIC that it has to make for this element. -/
def BspPc.unwritten : BspPc → List LapicWrite
  | .sending _ ws => ws
  | _ => []

/-- The interrupts that have not been sent to processor `a` yet. -/
def unsent (mp : MpState) (s : ApBoot) (a : Byte) : List Ipi :=
  if s.bsp.begun mp.ncpu ≤ a.toNat then startIpis
  else ((sends s.highWord s.bsp.unwritten).filter fun x => decide (x.1 = a)).map Prod.snd

/-- Where a processor is that has taken `k` of the four interrupts. -/
def ApPhase (top : Word) : ℕ → ApState → Prop
  | 0, ap => ap = .parked
  | 1, ap => ap = .waiting
  | 2, ap => ap = .waiting
  | _, ap => ap = .entry mpentryPaddr ∨ ap.On top

/-- The writes for the first `n` elements of `cpus`. -/
def startWrites (me : ℕ) (mp : MpState) (n : ℕ) : List LapicWrite :=
  (List.range n).flatMap fun c =>
    if c = me then [] else lapicStartap (mp.cpus c).cpuId mpentryPaddr

/-- The processors are numbered in their order, and of those that are started none is marked from
the beginning. -/
structure Numbered (me : ℕ) (mp : MpState) : Prop where
  ncpu_le : mp.ncpu ≤ ncpuMax
  ids : ∀ c < mp.ncpu, (mp.cpus c).cpuId = BitVec.ofNat 8 c
  unmarked : ∀ c < mp.ncpu, c ≠ me → (mp.cpus c).cpuStatus ≠ .started

/-- The invariant. -/
structure HandshakeInv (kstacks : Word) (me : ℕ) (mp : MpState) (s : ApBoot) : Prop where
  others : ∀ a, ¬Starts me mp a → s.ap a = .parked ∧ s.inFlight a = []
  phase : ∀ a, Starts me mp a → ∃ k, s.inFlight a ++ unsent mp s a = startIpis.drop k ∧
    ApPhase (percpuKstackTop kstacks a.toNat) k (s.ap a)
  marked : ∀ a, Starts me mp a → s.cpuStatus a.toNat = .started → ∃ esp, s.ap a = .started esp
  behind : ∀ a, Starts me mp a → a.toNat < s.bsp.begun mp.ncpu →
    s.bsp.current ≠ some a.toNat → ∃ esp, s.ap a = .started esp
  current : ∀ c, s.bsp.current = some c → c < mp.ncpu ∧ c ≠ me ∧
    s.bsp.begun mp.ncpu = c + 1 ∧ s.mpentryKstack = percpuKstackTop kstacks c ∧
    ∀ x ∈ sends s.highWord s.bsp.unwritten, x.1 = BitVec.ofNat 8 c
  bound : s.bsp.begun mp.ncpu ≤ mp.ncpu
  written : s.writes ++ s.bsp.unwritten = startWrites me mp (s.bsp.begun mp.ncpu)

section Invariant

variable {kstacks : Word} {me : ℕ} {mp : MpState} {s s' : ApBoot} {a : Byte} {ap : ApState}
  {top : Word} {k : ℕ}

theorem ApPhase.late (h : ApPhase top k ap) (hk : 3 ≤ k) :
    ap = .entry mpentryPaddr ∨ ap.On top := by
  match k, hk with
  | k + 3, _ => exact h

theorem ApPhase.mk_late (hk : 3 ≤ k) (h : ap = .entry mpentryPaddr ∨ ap.On top) :
    ApPhase top k ap := by
  match k, hk with
  | k + 3, _ => exact h

/-- A processor that runs `mpentry.S` or `mp_main` has taken three interrupts. -/
theorem ApPhase.three_le (h : ApPhase top k ap) (hap : ap ≠ .parked ∧ ap ≠ .waiting) : 3 ≤ k := by
  -- with fewer it is parked or waits
  match k with
  | 0 => exact absurd h hap.1
  | 1 => exact absurd h hap.2
  | 2 => exact absurd h hap.2
  | k + 3 => exact Nat.le_add_left 3 k

/-- The stack is the one of the processor. -/
theorem ApPhase.on_eq (h : ApPhase top k ap) {esp : Word} (hap : ap.On esp) : esp = top := by
  have hne : ap ≠ .parked ∧ ap ≠ .waiting := by
    obtain rfl | rfl | rfl := hap <;> exact ⟨ApState.noConfusion, ApState.noConfusion⟩
  obtain rfl | h := h.late (h.three_le hne)
  · obtain hap | hap | hap := hap <;> cases hap
  · obtain rfl | rfl | rfl := hap <;> obtain h | h | h := h <;> cases h <;> rfl

namespace HandshakeInv

/-- Only the processor that `boot_aps` is at is on its way. -/
theorem underway (h : HandshakeInv kstacks me mp s) (ha : (s.ap a).Underway) :
    Starts me mp a ∧ s.bsp.current = some a.toNat := by
  by_cases hstarts : Starts me mp a
  · refine ⟨hstarts, ?_⟩
    obtain ⟨k, hk, hphase⟩ := h.phase a hstarts
    by_cases hbegun : s.bsp.begun mp.ncpu ≤ a.toNat
    · -- nothing has been sent to it
      rw [unsent, if_pos hbegun] at hk
      have hlen := congrArg List.length hk
      have hfour : startIpis.length = 4 := rfl
      rw [List.length_append, List.length_drop, hfour] at hlen
      obtain rfl : k = 0 := by omega
      rw [show s.ap a = .parked from hphase] at ha
      exact ha.elim
    · by_contra hcur
      obtain ⟨esp, hesp⟩ := h.behind a hstarts (not_le.mp hbegun) hcur
      rw [hesp] at ha
      exact ha.elim
  · rw [(h.others a hstarts).1] at ha
    exact ha.elim

/-- A processor goes on, on its own. -/
theorem move (h : HandshakeInv kstacks me mp s) {ipis : List Ipi} {status : ℕ → CpuStatus}
    (hstarts : Starts me mp a)
    (hphase : ∃ k, ipis ++ unsent mp s a = startIpis.drop k ∧
      ApPhase (percpuKstackTop kstacks a.toNat) k ap)
    (hkept : (∃ esp, s.ap a = .started esp) → ∃ esp, ap = .started esp)
    (hmarked : status a.toNat = .started → ∃ esp, ap = .started esp)
    (hstatus : ∀ c ≠ a.toNat, status c = s.cpuStatus c) :
    HandshakeInv kstacks me mp { s with
      ap := Function.update s.ap a ap
      inFlight := Function.update s.inFlight a ipis
      cpuStatus := status } := by
  -- only what is said of `a` changes
  refine ⟨?_, ?_, ?_, ?_, h.current, h.bound, h.written⟩
  · intro b hb
    have hba : b ≠ a := by
      rintro rfl
      exact hb hstarts
    simp only [Function.update_of_ne hba]
    exact h.others b hb
  · intro b hb
    by_cases hba : b = a
    · subst hba
      simp only [Function.update_self]
      exact hphase
    · simp only [Function.update_of_ne hba]
      exact h.phase b hb
  · intro b hb hst
    by_cases hba : b = a
    · subst hba
      simp only [Function.update_self]
      exact hmarked hst
    · simp only [Function.update_of_ne hba]
      have hold := hstatus b.toNat fun hc => hba (BitVec.eq_of_toNat_eq hc)
      exact h.marked b hb (hold.symm.trans hst)
  · intro b hb hlt hcur
    by_cases hba : b = a
    · subst hba
      simp only [Function.update_self]
      exact hkept (h.behind b hb hlt hcur)
    · simp only [Function.update_of_ne hba]
      exact h.behind b hb hlt hcur

/-- A processor takes an interrupt. -/
theorem receive (h : HandshakeInv kstacks me mp s) {ipi : Ipi} {ipis : List Ipi}
    (hipi : s.inFlight a = ipi :: ipis) :
    HandshakeInv kstacks me mp { s with
      inFlight := Function.update s.inFlight a ipis
      ap := Function.update s.ap a ((s.ap a).receive ipi) } := by
  -- nothing is on its way to a processor that is not started
  have hstarts : Starts me mp a := by
    by_contra hno
    rw [(h.others a hno).2] at hipi
    cases hipi
  obtain ⟨k, hk, hphase⟩ := h.phase a hstarts
  rw [hipi, List.cons_append] at hk
  -- which of the four it is
  obtain ⟨hnext, hphase', hkept⟩ : ipis ++ unsent mp s a = startIpis.drop (k + 1) ∧
      ApPhase (percpuKstackTop kstacks a.toNat) (k + 1) ((s.ap a).receive ipi) ∧
      ((∃ esp, s.ap a = .started esp) → ∃ esp, (s.ap a).receive ipi = .started esp) := by
    -- INIT, the end of INIT, and then two startup interrupts
    match k with
    | 0 =>
      obtain ⟨rfl, hrest⟩ := List.cons.inj hk
      rw [show s.ap a = .parked from hphase]
      exact ⟨hrest, rfl, fun ⟨_, hc⟩ => ApState.noConfusion hc⟩
    | 1 =>
      obtain ⟨rfl, hrest⟩ := List.cons.inj hk
      rw [show s.ap a = .waiting from hphase]
      exact ⟨hrest, rfl, fun ⟨_, hc⟩ => ApState.noConfusion hc⟩
    | 2 =>
      obtain ⟨rfl, hrest⟩ := List.cons.inj hk
      rw [show s.ap a = .waiting from hphase]
      exact ⟨hrest, .inl (by decide), fun ⟨_, hc⟩ => ApState.noConfusion hc⟩
    | 3 =>
      -- the second startup interrupt finds the processor running
      obtain ⟨rfl, hrest⟩ := List.cons.inj hk
      obtain hap | hap | hap | hap := hphase.late le_rfl <;> rw [hap]
      · exact ⟨hrest, .inl rfl, id⟩
      · exact ⟨hrest, .inr (.inl rfl), id⟩
      · exact ⟨hrest, .inr (.inr (.inl rfl)), id⟩
      · exact ⟨hrest, .inr (.inr (.inr rfl)), id⟩
    | k + 4 =>
      -- there is no fifth
      rw [List.drop_eq_nil_of_le (Nat.le_add_left 4 k)] at hk
      cases hk
  exact h.move hstarts ⟨k + 1, hnext, hphase'⟩ hkept
    (fun hst => hkept (h.marked a hstarts hst)) fun _ _ => rfl

/-- A processor that is on its way goes on. It has taken three interrupts. -/
theorem advance (h : HandshakeInv kstacks me mp s) (ha : (s.ap a).Underway)
    (hne : s.ap a ≠ .waiting) (hap : ap.On (percpuKstackTop kstacks a.toNat))
    {status : ℕ → CpuStatus} (hstatus : ∀ c ≠ a.toNat, status c = s.cpuStatus c)
    (hmarked : status a.toNat = .started → ∃ esp, ap = .started esp) :
    HandshakeInv kstacks me mp { s with
      ap := Function.update s.ap a ap
      cpuStatus := status } := by
  obtain ⟨hstarts, -⟩ := h.underway ha
  -- the interrupts that are on their way stay, and `k` with them
  obtain ⟨k, hk, hphase⟩ := h.phase a hstarts
  have hparked : s.ap a ≠ .parked := by
    intro hc
    rw [hc] at ha
    exact ha
  have hnot : ¬∃ esp, s.ap a = .started esp := by
    rintro ⟨esp, hc⟩
    rw [hc] at ha
    exact ha
  have hmove := h.move hstarts ⟨k, hk, .mk_late (hphase.three_le ⟨hparked, hne⟩) (.inr hap)⟩
    (fun hc => absurd hc hnot) hmarked hstatus
  rwa [Function.update_eq_self] at hmove

/-- A processor goes on. It loads the stack that is meant for it. -/
theorem apStep (h : HandshakeInv kstacks me mp s) (hs : apStep a s = some s') :
    HandshakeInv kstacks me mp s' := by
  unfold Jos.apStep at hs
  cases hap : s.ap a with
  | entry addr =>
    have hunder : (s.ap a).Underway := by rw [hap]; trivial
    obtain ⟨hstarts, hcur⟩ := h.underway hunder
    -- `boot_aps` is at this processor, so `mpentry_kstack` is the stack that it set for it
    obtain ⟨-, -, -, hkstack, -⟩ := h.current _ hcur
    rw [hap] at hs
    dsimp only at hs
    split_ifs at hs
    obtain rfl := Option.some.inj hs
    refine h.advance hunder (by rw [hap]; exact ApState.noConfusion) (.inl (by rw [hkstack]))
      (fun _ _ => rfl) fun hst => ?_
    obtain ⟨esp, hc⟩ := h.marked a hstarts hst
    rw [hap] at hc
    cases hc
  | setup esp =>
    have hunder : (s.ap a).Underway := by rw [hap]; trivial
    obtain ⟨hstarts, -⟩ := h.underway hunder
    -- it stores `CPU_STARTED`, on the stack that it has loaded before
    obtain ⟨k, -, hphase⟩ := h.phase a hstarts
    rw [hap] at hs
    obtain rfl := Option.some.inj hs
    refine h.advance hunder (by rw [hap]; exact ApState.noConfusion) ?_ ?_ fun _ => ⟨_, rfl⟩
    · rw [hphase.on_eq (.inl hap)]
      exact .inr (.inl rfl)
    · intro c hc
      exact Function.update_of_ne hc _ _
  | parked => rw [hap] at hs; cases hs
  | waiting => rw [hap] at hs; cases hs
  | started esp => rw [hap] at hs; cases hs
  | panicked esp => rw [hap] at hs; cases hs

/-- A processor panics. -/
theorem panic (h : HandshakeInv kstacks me mp s) {esp : Word} (hap : s.ap a = .setup esp) :
    HandshakeInv kstacks me mp { s with ap := Function.update s.ap a (.panicked esp) } := by
  have hunder : (s.ap a).Underway := by rw [hap]; trivial
  -- it keeps its stack, and the mark is not set
  obtain ⟨hstarts, -⟩ := h.underway hunder
  obtain ⟨k, -, hphase⟩ := h.phase a hstarts
  refine h.advance hunder (by rw [hap]; exact ApState.noConfusion) ?_ (fun _ _ => rfl) ?_
  · rw [hphase.on_eq (.inl hap)]
    exact .inr (.inr rfl)
  · intro hst
    obtain ⟨esp', hc⟩ := h.marked a hstarts hst
    rw [hap] at hc
    cases hc

end HandshakeInv

/-- The number of an element is an APIC id. -/
theorem Numbered.toNat_ofNat (h : Numbered me mp) {c : ℕ} (hc : c < mp.ncpu) :
    (BitVec.ofNat 8 c).toNat = c := by
  have hle := h.ncpu_le
  have hmax : ncpuMax = 8 := rfl
  rw [BitVec.toNat_ofNat]
  exact Nat.mod_eq_of_lt (by omega)

theorem Numbered.starts (h : Numbered me mp) {c : ℕ} (hc : c < mp.ncpu) (hme : c ≠ me) :
    Starts me mp (BitVec.ofNat 8 c) := by
  rw [Starts, h.toNat_ofNat hc]
  exact ⟨hc, hme⟩

/-! ### `boot_aps` goes on -/

namespace HandshakeInv

/-- `boot_aps` goes on, and nothing is sent. -/
theorem bspMove (h : HandshakeInv kstacks me mp s) {pc : BspPc} {kstack : Word}
    (hphase : ∀ a, Starts me mp a →
      unsent mp { s with bsp := pc, mpentryKstack := kstack } a = unsent mp s a)
    (hbehind : ∀ a, Starts me mp a → a.toNat < pc.begun mp.ncpu → pc.current ≠ some a.toNat →
      ∃ esp, s.ap a = .started esp)
    (hcurrent : ∀ c, pc.current = some c → c < mp.ncpu ∧ c ≠ me ∧ pc.begun mp.ncpu = c + 1 ∧
      kstack = percpuKstackTop kstacks c ∧
      ∀ x ∈ sends s.highWord pc.unwritten, x.1 = BitVec.ofNat 8 c)
    (hbound : pc.begun mp.ncpu ≤ mp.ncpu)
    (hwritten : s.writes ++ pc.unwritten = startWrites me mp (pc.begun mp.ncpu)) :
    HandshakeInv kstacks me mp { s with bsp := pc, mpentryKstack := kstack } := by
  refine ⟨h.others, fun a ha => ?_, h.marked, hbehind, hcurrent, hbound, hwritten⟩
  rw [hphase a ha]
  exact h.phase a ha

theorem startWrites_succ (me : ℕ) (mp : MpState) (n : ℕ) :
    startWrites me mp (n + 1) = startWrites me mp n ++
      if n = me then [] else lapicStartap (mp.cpus n).cpuId mpentryPaddr := by
  rw [startWrites, List.range_succ, List.flatMap_append, List.flatMap_singleton]
  rfl

/-- At `c < cpus + ncpu` everything has been sent to the processors before `c`, nothing to the
others. -/
theorem atNext (h : HandshakeInv kstacks me mp s) {c : ℕ} (hpc : s.bsp = .next c) :
    c ≤ mp.ncpu ∧ s.writes = startWrites me mp c ∧
      (∀ a, unsent mp s a = if c ≤ a.toNat then startIpis else []) ∧
      ∀ a, Starts me mp a → a.toNat < c → ∃ esp, s.ap a = .started esp := by
  have hbegun : s.bsp.begun mp.ncpu = c := by rw [hpc]; rfl
  have hcur : s.bsp.current = none := by rw [hpc]; rfl
  have hun : s.bsp.unwritten = [] := by rw [hpc]; rfl
  have hbound := h.bound
  have hwritten := h.written
  rw [hun, List.append_nil, hbegun] at hwritten
  rw [hbegun] at hbound
  refine ⟨hbound, hwritten, fun a => ?_, fun a ha hlt => ?_⟩
  · rw [unsent, hbegun, hun]
    rfl
  · exact h.behind a ha (by rwa [hbegun]) (by rw [hcur]; exact nofun)

/-- The processor that runs `boot_aps` is left out. -/
theorem bspSkip (h : HandshakeInv kstacks me mp s) (hpc : s.bsp = .next me) (hlt : me < mp.ncpu) :
    HandshakeInv kstacks me mp { s with bsp := .next (me + 1) } := by
  obtain ⟨-, hwritten, hunsent, hbehind⟩ := h.atNext hpc
  -- no processor that is started has the number `me`, so nothing is left out but itself
  refine h.bspMove (fun a ha => ?_) (fun a ha hle _ => ?_) nofun hlt ?_
  · have hne := ha.2
    rw [hunsent]
    exact if_congr (by change me + 1 ≤ a.toNat ↔ _; omega) rfl rfl
  · have hne := ha.2
    have hle : a.toNat < me + 1 := hle
    exact hbehind a ha (by omega)
  · change s.writes ++ [] = startWrites me mp (me + 1)
    rw [List.append_nil, hwritten, startWrites_succ, if_pos rfl, List.append_nil]

/-- What is about to be sent when `boot_aps` turns to element `c`. -/
theorem unsent_start (hnum : Numbered me mp) {c : ℕ} (hlt : c < mp.ncpu) (kstack : Word)
    (a : Byte) :
    unsent mp { s with
      mpentryKstack := kstack
      bsp := .sending c (lapicStartap (mp.cpus c).cpuId mpentryPaddr) } a =
      if c ≤ a.toNat then startIpis else [] := by
  have hnew : unsent mp { s with
      mpentryKstack := kstack
      bsp := .sending c (lapicStartap (mp.cpus c).cpuId mpentryPaddr) } a =
      if c + 1 ≤ a.toNat then startIpis else ((startIpis.map (BitVec.ofNat 8 c, ·)).filter
        fun x => decide (x.1 = a)).map Prod.snd := by
    rw [← sends_lapicStartap s.highWord, ← hnum.ids c hlt]
    rfl
  rw [hnew]
  have htoNat := hnum.toNat_ofNat hlt
  -- the interrupts for `c` itself are those in the writes
  obtain hca | hca | hca := Nat.lt_trichotomy c a.toNat
  · rw [if_pos (Nat.succ_le_of_lt hca), if_pos hca.le]
  · have ha : BitVec.ofNat 8 c = a := BitVec.eq_of_toNat_eq (by rw [htoNat, hca])
    rw [if_neg (by omega), if_pos hca.le, ha]
    simp [startIpis]
  · have ha : BitVec.ofNat 8 c ≠ a := by
      rintro rfl
      omega
    rw [if_neg (by omega), if_neg (by omega)]
    simp [ha, startIpis]

/-- `boot_aps` sets `mpentry_kstack` for the next processor and calls `lapic_startap`. -/
theorem bspStart (hnum : Numbered me mp) (h : HandshakeInv kstacks me mp s) {c : ℕ}
    (hpc : s.bsp = .next c) (hlt : c < mp.ncpu) (hme : c ≠ me) :
    HandshakeInv kstacks me mp { s with
      mpentryKstack := percpuKstackTop kstacks c
      bsp := .sending c (lapicStartap (mp.cpus c).cpuId mpentryPaddr) } := by
  obtain ⟨-, hwritten, hunsent, hbehind⟩ := h.atNext hpc
  -- what was not begun for `c` is in the writes now
  refine h.bspMove (fun a ha => ?_) (fun a ha hle hne => ?_) ?_ hlt ?_
  · rw [unsent_start hnum hlt, hunsent]
  · have hle : a.toNat < c + 1 := hle
    have hne : c ≠ a.toNat := fun hc => hne (congrArg some hc)
    exact hbehind a ha (by omega)
  · rintro d ⟨⟩
    refine ⟨hlt, hme, rfl, rfl, fun x hx => ?_⟩
    rw [BspPc.unwritten, hnum.ids c hlt, sends_lapicStartap] at hx
    obtain ⟨ipi, -, rfl⟩ := List.mem_map.mp hx
    rfl
  · change s.writes ++ lapicStartap _ _ = startWrites me mp (c + 1)
    rw [hwritten, startWrites_succ, if_neg hme]

/-- There is no element left. -/
theorem bspReturn (h : HandshakeInv kstacks me mp s) (hpc : s.bsp = .next mp.ncpu) :
    HandshakeInv kstacks me mp { s with bsp := .returned } := by
  obtain ⟨-, hwritten, hunsent, hbehind⟩ := h.atNext hpc
  -- no processor is past `ncpu`, so nothing is left to be sent
  refine h.bspMove (fun a ha => ?_) (fun a ha hle _ => hbehind a ha hle) nofun le_rfl ?_
  · rw [hunsent]
    rfl
  · change s.writes ++ [] = startWrites me mp mp.ncpu
    rw [List.append_nil, hwritten]

/-- At `c < cpus + ncpu`. -/
theorem bspNext (hnum : Numbered me mp) (h : HandshakeInv kstacks me mp s) {c : ℕ}
    (hpc : s.bsp = .next c) (hs : bspStep kstacks me mp s = some s') :
    HandshakeInv kstacks me mp s' := by
  obtain ⟨hle, -⟩ := h.atNext hpc
  rw [bspStep, hpc] at hs
  dsimp only at hs
  split_ifs at hs with hlt hme
  · subst hme
    obtain rfl := Option.some.inj hs
    exact h.bspSkip hpc hlt
  · obtain rfl := Option.some.inj hs
    exact h.bspStart hnum hpc hlt hme
  · obtain rfl := Option.some.inj hs
    obtain rfl : c = mp.ncpu := hle.antisymm (not_lt.mp hlt)
    exact h.bspReturn hpc

/-- `lapic_startap` has made all its writes. -/
theorem bspSent (h : HandshakeInv kstacks me mp s) {c : ℕ} (hpc : s.bsp = .sending c []) :
    HandshakeInv kstacks me mp { s with bsp := .waiting c } := by
  have hbegun : s.bsp.begun mp.ncpu = c + 1 := by rw [hpc]; rfl
  have hcur : s.bsp.current = some c := by rw [hpc]; rfl
  have hun : s.bsp.unwritten = [] := by rw [hpc]; rfl
  obtain ⟨hlt, hme, -, hkstack, -⟩ := h.current c hcur
  have hwritten := h.written
  -- no write is left, and so nothing that is not sent yet
  refine h.bspMove (fun a _ => ?_) (fun a ha hle hne => ?_) ?_ hlt ?_
  · rw [unsent, unsent, hbegun, hun]
    rfl
  · exact h.behind a ha (by rw [hbegun]; exact hle) (by rw [hcur]; exact hne)
  · rintro d ⟨⟩
    exact ⟨hlt, hme, rfl, hkstack, List.forall_mem_nil _⟩
  · rw [hun, hbegun] at hwritten
    exact hwritten

/-- One of its writes. What it sends was about to be sent, and to the processor that `boot_aps` is
at. -/
theorem lapicw_sent (h : HandshakeInv kstacks me mp s) {c : ℕ} {w : LapicWrite}
    {ws : List LapicWrite} (hpc : s.bsp = .sending c (w :: ws)) :
    (∀ x ∈ sends (s.lapicw w).highWord ws, x.1 = BitVec.ofNat 8 c) ∧
      (∀ a, a ≠ BitVec.ofNat 8 c → (s.lapicw w).inFlight a = s.inFlight a) ∧
      ∀ a, { s.lapicw w with bsp := .sending c ws : ApBoot }.inFlight a ++
        unsent mp { s.lapicw w with bsp := .sending c ws } a = s.inFlight a ++ unsent mp s a := by
  have hbegun : s.bsp.begun mp.ncpu = c + 1 := by rw [hpc]; rfl
  have hcur : s.bsp.current = some c := by rw [hpc]; rfl
  have hun : s.bsp.unwritten = w :: ws := by rw [hpc]; rfl
  obtain ⟨hlt, -, -, -, hdest⟩ := h.current c hcur
  obtain ⟨now, hsends, hflight⟩ := lapicw_inFlight s w ws
  rw [hun, hsends] at hdest
  -- nothing is sent to any other processor
  have hnow : ∀ a, a ≠ BitVec.ofNat 8 c → now.filter (fun x => decide (x.1 = a)) = [] := by
    intro a ha
    rw [List.filter_eq_nil_iff]
    intro x hx hxa
    have hid := hdest x (List.mem_append_left _ hx)
    exact ha ((of_decide_eq_true hxa).symm.trans hid)
  refine ⟨fun x hx => hdest x (List.mem_append_right _ hx), fun a ha => ?_, fun a => ?_⟩
  · rw [hflight, hnow a ha, List.map_nil, List.append_nil]
  · -- what the write sends goes from what is not sent to what is on its way
    rw [unsent, unsent, hbegun, hun, hsends]
    change (s.lapicw w).inFlight a ++ (if c + 1 ≤ a.toNat then startIpis else _) = _
    rw [hflight]
    by_cases ha : c + 1 ≤ a.toNat
    · have hne : a ≠ BitVec.ofNat 8 c := by
        rintro rfl
        have hle := Nat.mod_le c (2 ^ 8)
        rw [BitVec.toNat_ofNat] at ha
        omega
      rw [if_pos ha, if_pos ha, hnow a hne, List.map_nil, List.append_nil]
    · rw [if_neg ha, if_neg ha, List.filter_append, List.map_append, List.append_assoc]
      rfl

theorem bspWrite (hnum : Numbered me mp) (h : HandshakeInv kstacks me mp s) {c : ℕ}
    {w : LapicWrite} {ws : List LapicWrite} (hpc : s.bsp = .sending c (w :: ws)) :
    HandshakeInv kstacks me mp { s.lapicw w with bsp := .sending c ws } := by
  have hbegun : s.bsp.begun mp.ncpu = c + 1 := by rw [hpc]; rfl
  have hcur : s.bsp.current = some c := by rw [hpc]; rfl
  have hun : s.bsp.unwritten = w :: ws := by rw [hpc]; rfl
  obtain ⟨hlt, hme, -, hkstack, -⟩ := h.current c hcur
  obtain ⟨hkst, hst, hwr, hap⟩ := lapicw_fields s w
  obtain ⟨hdest, hother, hsent⟩ := h.lapicw_sent hpc
  have hwritten := h.written
  refine ⟨fun a ha => ?_, fun a ha => ?_, ?_, fun a ha hle hne => ?_, ?_, hlt, ?_⟩
  · -- a processor that is not started is not the one that `boot_aps` is at
    have hne : a ≠ BitVec.ofNat 8 c := by
      rintro rfl
      exact ha (hnum.starts hlt hme)
    obtain ⟨hpark, hempty⟩ := h.others a ha
    exact ⟨(congrFun hap a).trans hpark, (hother a hne).trans hempty⟩
  · obtain ⟨k, hk, hphase⟩ := h.phase a ha
    refine ⟨k, (hsent a).trans hk, ?_⟩
    change ApPhase _ k ((s.lapicw w).ap a)
    rwa [hap]
  · change ∀ a, _ → (s.lapicw w).cpuStatus _ = _ → ∃ esp, (s.lapicw w).ap a = _
    rw [hst, hap]
    exact h.marked
  · change ∃ esp, (s.lapicw w).ap a = _
    rw [hap]
    exact h.behind a ha (by rw [hbegun]; exact hle) (by rw [hcur]; exact hne)
  · rintro d ⟨⟩
    refine ⟨hlt, hme, rfl, ?_, hdest⟩
    change (s.lapicw w).mpentryKstack = _
    rw [hkst, hkstack]
  · change (s.lapicw w).writes ++ ws = startWrites me mp (c + 1)
    rw [hwr, List.append_assoc, List.singleton_append, ← hun, hwritten, hbegun]

/-- In `lapic_startap`. -/
theorem bspSending (hnum : Numbered me mp) (h : HandshakeInv kstacks me mp s) {c : ℕ}
    {ws : List LapicWrite} (hpc : s.bsp = .sending c ws) (hs : bspStep kstacks me mp s = some s') :
    HandshakeInv kstacks me mp s' := by
  rw [bspStep, hpc] at hs
  cases ws with
  | nil =>
    obtain rfl := Option.some.inj hs
    exact h.bspSent hpc
  | cons w ws =>
    obtain rfl := Option.some.inj hs
    exact h.bspWrite hnum hpc

/-- At `while (c->cpu_status != CPU_STARTED)`. -/
theorem bspWaiting (h : HandshakeInv kstacks me mp s) {c : ℕ} (hpc : s.bsp = .waiting c)
    (hs : bspStep kstacks me mp s = some s') : HandshakeInv kstacks me mp s' := by
  have hbegun : s.bsp.begun mp.ncpu = c + 1 := by rw [hpc]; rfl
  have hun : s.bsp.unwritten = [] := by rw [hpc]; rfl
  have hcur : s.bsp.current = some c := by rw [hpc]; rfl
  obtain ⟨hlt, -⟩ := h.current c hcur
  have hwritten := h.written
  rw [bspStep, hpc] at hs
  obtain rfl := Option.some.inj hs
  -- it goes on when the element says `CPU_STARTED`, and else looks again
  split_ifs with hst
  · refine h.bspMove (fun a _ => ?_) (fun a ha hle _ => ?_) nofun hlt ?_
    · rw [unsent, unsent, hbegun, hun]
      rfl
    · by_cases hac : a.toNat = c
      · -- the mark is that of the processor itself
        exact h.marked a ha (by rw [hac]; exact hst)
      · exact h.behind a ha (by rw [hbegun]; exact hle)
          (by rw [hcur]; exact fun hc => hac (Option.some.inj hc).symm)
    · rw [hun, hbegun] at hwritten
      exact hwritten
  · exact h

/-- Every step keeps the invariant. -/
theorem step (hnum : Numbered me mp) (h : HandshakeInv kstacks me mp s) {op : BootOp}
    (hs : bootStep kstacks me mp s op = some s') : HandshakeInv kstacks me mp s' := by
  cases op with
  | bsp =>
    cases hpc : s.bsp with
    | next c => exact h.bspNext hnum hpc hs
    | sending c ws => exact h.bspSending hnum hpc hs
    | waiting c => exact h.bspWaiting hpc hs
    | returned =>
      rw [bootStep, bspStep, hpc] at hs
      cases hs
  | receive a =>
    rw [bootStep] at hs
    cases hflight : s.inFlight a with
    | nil =>
      rw [hflight] at hs
      cases hs
    | cons ipi ipis =>
      rw [hflight] at hs
      obtain rfl := Option.some.inj hs
      exact h.receive hflight
  | ap a => exact h.apStep hs
  | panic a =>
    rw [bootStep] at hs
    cases hap : s.ap a with
    | setup esp =>
      rw [hap] at hs
      obtain rfl := Option.some.inj hs
      exact h.panic hap
    | parked => rw [hap] at hs; cases hs
    | waiting => rw [hap] at hs; cases hs
    | entry addr => rw [hap] at hs; cases hs
    | started esp => rw [hap] at hs; cases hs
    | panicked esp => rw [hap] at hs; cases hs

theorem init (kstacks : Word) (hnum : Numbered me mp) :
    HandshakeInv kstacks me mp (apBootInit mp) := by
  refine ⟨fun _ _ => ⟨rfl, rfl⟩, fun a _ => ⟨0, ?_, rfl⟩, fun a ha hst => ?_, ?_, nofun,
    Nat.zero_le _, rfl⟩
  · -- all four interrupts are still to be sent
    have hunsent : unsent mp (apBootInit mp) a = startIpis := if_pos (Nat.zero_le _)
    rw [hunsent]
    rfl
  · -- the only mark is on the element of the boot processor
    exact absurd hst (hnum.unmarked _ ha.1 ha.2)
  · exact fun a _ hlt => absurd hlt (Nat.not_lt_zero _)

end HandshakeInv

end Invariant

/-! ### Runs -/

/-- The `i`-th byte below the top of a stack, counted from the bottom of all of them. -/
theorem percpuKstackTop_sub (kstacks : Word) (c : ℕ) {i : ℕ} (hi : i < kstksize) :
    percpuKstackTop kstacks c - BitVec.ofNat 32 (i + 1) =
      kstacks + BitVec.ofNat 32 (kstksize * c + (kstksize - (i + 1))) := by
  have hsplit : c * kstksize + kstksize = kstksize * c + (kstksize - (i + 1)) + (i + 1) := by
    rw [Nat.mul_comm]
    omega
  rw [percpuKstackTop, hsplit, BitVec.ofNat_add, ← BitVec.add_assoc, BitVec.add_sub_cancel]

/-- The stacks of two processors have no byte in common. -/
theorem percpuKstackTop_apart (kstacks : Word) {c d : ℕ} (hc : c < ncpuMax) (hd : d < ncpuMax)
    (hne : c ≠ d) {i j : ℕ} (hi : i < kstksize) (hj : j < kstksize) :
    percpuKstackTop kstacks c - BitVec.ofNat 32 (i + 1) ≠
      percpuKstackTop kstacks d - BitVec.ofNat 32 (j + 1) := by
  rw [percpuKstackTop_sub kstacks c hi, percpuKstackTop_sub kstacks d hj]
  have hsize : kstksize = 32768 := rfl
  have hmax : ncpuMax = 8 := rfl
  rw [hsize] at hi hj ⊢
  -- the offsets differ, and all of them are below `NCPU * KSTKSIZE`
  intro heq
  have hoff := congrArg BitVec.toNat ((BitVec.add_right_inj kstacks).mp heq)
  rw [BitVec.toNat_ofNat, BitVec.toNat_ofNat, Nat.mod_eq_of_lt (by omega),
    Nat.mod_eq_of_lt (by omega)] at hoff
  omega

/-- When every processor answers, `boot_aps` tells the local APIC to start each of them. -/
theorem bootApsLoop_answers (me : ℕ) {cs : List ℕ} {cpus : ℕ → MpCpu}
    (hid : ∀ c ∈ cs, (cpus c).cpuId = BitVec.ofNat 8 c) (hlt : ∀ c ∈ cs, c < 256) :
    bootApsLoop (fun _ => true) me cs cpus = cs.flatMap fun c =>
      if c = me then [] else lapicStartap (BitVec.ofNat 8 c) mpentryPaddr := by
  induction cs generalizing cpus with
  | nil => rfl
  | cons c cs ih =>
    obtain ⟨hc, hid⟩ := List.forall_mem_cons.mp hid
    obtain ⟨hc', hlt⟩ := List.forall_mem_cons.mp hlt
    have hnum : (BitVec.ofNat 8 c).toNat = c := by
      rw [BitVec.toNat_ofNat]
      exact Nat.mod_eq_of_lt hc'
    rw [bootApsLoop, List.flatMap_cons]
    by_cases hme : c = me
    · rw [if_pos hme, if_pos hme, ih hid hlt, List.nil_append]
    · rw [if_neg hme, if_neg hme]
      simp only [hc, if_true, hnum, Function.update_self]
      rw [ih _ hlt]
      -- the mark does not change any id
      intro d hd
      have hold := hid d hd
      by_cases hdc : d = c
      · rw [hdc, Function.update_self]
      · rw [Function.update_of_ne hdc]
        exact hold

theorem HandshakeInv.apsBoot {kstacks : Word} {me : ℕ} {mp : MpState} {s : ApBoot}
    (hnum : Numbered me mp) (h : HandshakeInv kstacks me mp s) : ApsBoot kstacks me mp s := by
  have hstack : ∀ a esp, (s.ap a).On esp →
      Starts me mp a ∧ esp = percpuKstackTop kstacks a.toNat := by
    intro a esp hon
    by_cases ha : Starts me mp a
    · obtain ⟨k, -, hphase⟩ := h.phase a ha
      exact ⟨ha, hphase.on_eq hon⟩
    · rw [(h.others a ha).1] at hon
      obtain hon | hon | hon := hon <;> cases hon
  have hlt : ∀ a, Starts me mp a → a.toNat < ncpuMax := fun a ha => ha.1.trans_le hnum.ncpu_le
  refine ⟨hstack, ?_, ?_, ?_, fun a ha => (h.others a ha).1, ?_⟩
  · -- the stacks with different numbers are apart
    intro a b esp esp' hne ha hb i hi j hj
    obtain ⟨ha', rfl⟩ := hstack a esp ha
    obtain ⟨hb', rfl⟩ := hstack b esp' hb
    exact percpuKstackTop_apart kstacks (hlt a ha') (hlt b hb')
      (fun hc => hne (BitVec.eq_of_toNat_eq hc)) hi hj
  · intro a addr haddr
    obtain ⟨hstarts, -⟩ := h.underway (a := a) (by rw [haddr]; trivial)
    obtain ⟨k, -, hphase⟩ := h.phase a hstarts
    have hthree := hphase.three_le (by rw [haddr]; exact ⟨ApState.noConfusion, ApState.noConfusion⟩)
    rw [haddr] at hphase
    obtain hc | hc | hc | hc := hphase.late hthree <;> cases hc
    rfl
  · -- `boot_aps` is at one element only
    intro a b ha hb
    have hcur := (h.underway ha).2.symm.trans (h.underway hb).2
    exact BitVec.eq_of_toNat_eq (Option.some.inj hcur)
  · -- all elements are behind it now
    intro hret
    have hbegun : s.bsp.begun mp.ncpu = mp.ncpu := by rw [hret]; rfl
    have hcur : s.bsp.current = none := by rw [hret]; rfl
    have hun : s.bsp.unwritten = [] := by rw [hret]; rfl
    constructor
    · intro a ha
      obtain ⟨esp, hesp⟩ := h.behind a ha (by rw [hbegun]; exact ha.1) (by rw [hcur]; exact nofun)
      rw [hesp, (hstack a esp (by rw [hesp]; exact .inr (.inl rfl))).2]
    · have hwritten := h.written
      have hids : ∀ c ∈ List.range mp.ncpu, (mp.cpus c).cpuId = BitVec.ofNat 8 c := fun c hc =>
        hnum.ids c (List.mem_range.mp hc)
      rw [hun, List.append_nil, hbegun] at hwritten
      rw [hwritten, startWrites, bootAps, bootApsLoop_answers me hids]
      · apply List.flatMap_congr
        intro c hc
        rw [hids c hc]
      · intro c hc
        have hle := hnum.ncpu_le
        have hmax : ncpuMax = 8 := rfl
        have hc := List.mem_range.mp hc
        omega

/-! ### What `mp_init` leaves -/

section Init

variable {B : Boot} {m : Word → Byte} {me : ℕ} {mp : MpState}

/-- The loop of `mp_init` marks no processor, and gives each one its place for a number. -/
theorem mpWalk_cpus (m : Word → Byte) (n : ℕ) (p : Word) (s : MpState) (c : ℕ) :
    ((mpWalk m n p s).cpus c).cpuStatus = (s.cpus c).cpuStatus ∧
      (((mpWalk m n p s).cpus c).cpuId = (s.cpus c).cpuId ∨
        ((mpWalk m n p s).cpus c).cpuId = BitVec.ofNat 8 c) := by
  induction n generalizing p s with
  | zero => exact ⟨rfl, .inl rfl⟩
  | succ n ih =>
    have hboot : (mpNoteBoot m p (s.readEntry p)).cpus = s.cpus := by
      unfold mpNoteBoot
      split_ifs <;> rfl
    -- an entry writes one element, its number and nothing else
    have hadd : ((mpAddProc m p (s.readEntry p)).cpus c).cpuStatus = (s.cpus c).cpuStatus ∧
        (((mpAddProc m p (s.readEntry p)).cpus c).cpuId = (s.cpus c).cpuId ∨
          ((mpAddProc m p (s.readEntry p)).cpus c).cpuId = BitVec.ofNat 8 c) := by
      rw [← hboot]
      unfold mpAddProc
      generalize mpNoteBoot m p (s.readEntry p) = t
      dsimp only
      split_ifs
      · simp only [MpState.writeCpu]
        by_cases hc : c = t.ncpu
        · subst hc
          rw [Function.update_self]
          exact ⟨rfl, .inr rfl⟩
        · rw [Function.update_of_ne hc]
          exact ⟨rfl, .inl rfl⟩
      · exact ⟨rfl, .inl rfl⟩
    rw [mpWalk]
    dsimp only
    split_ifs
    · obtain ⟨hst, hid⟩ := ih (p + BitVec.ofNat 32 sizeofMpproc) (mpAddProc m p (s.readEntry p))
      refine ⟨hst.trans hadd.1, ?_⟩
      obtain hid | hid := hid
      · rw [hid]
        exact hadd.2
      · exact .inr hid
    · exact ih _ _
    · exact ⟨rfl, .inl rfl⟩

/-- If the boot processor has its own element, `mp_init` leaves the processors numbered. -/
theorem mpInit_numbered (hinit : mpInit B m (fun _ => {}) = .ok mp)
    (hboot : mp.bootcpu < mp.ncpu → mp.bootcpu = me) : Numbered me mp := by
  cases hconf : mpconfig B m with
  | error p =>
    rw [mpInit, hconf] at hinit
    cases hinit
  | ok found =>
    obtain ⟨_ | ⟨mpp, conf⟩, said⟩ := found
    · -- without a table there is no processor to start
      rw [mpInit, hconf] at hinit
      cases hinit
      exact ⟨Nat.zero_le _, fun c hc => absurd hc (Nat.not_lt_zero c),
        fun c hc => absurd hc (Nat.not_lt_zero c)⟩
    · obtain ⟨s, hrun, h⟩ := mpInit_spec hconf fun _ => {}
      obtain rfl := ok_unique hinit hrun
      have hcpus := mpWalk_cpus m (confEntry m conf) (confEntries conf)
        { cpus := fun _ => {}, console := said, ismp := true, lapicaddr := confLapicaddr m conf }
      rw [mpInit, hconf] at hinit
      obtain rfl := Except.ok.inj hinit
      generalize mpWalk m (confEntry m conf) (confEntries conf) _ = w at *
      obtain ⟨hupdate, hbootcpu, -⟩ := mpFinish_fields m mpp w
      refine ⟨?_, fun c hc => ?_, fun c hc hne hst => hne ?_⟩
      · rw [h.ncpu]
        split_ifs
        · decide
        · exact min_le_right _ _
      · rw [h.ncpu] at hc
        split_ifs at hc
        · -- the table is not used, and the number is still the first one, or again
          obtain rfl := Nat.lt_one_iff.mp hc
          have hid : (w.cpus 0).cpuId = 0#8 := (hcpus 0).2.elim id id
          rw [hupdate]
          by_cases hb : 0 = w.bootcpu
          · rw [← hb, Function.update_self]
            exact hid
          · rw [Function.update_of_ne hb]
            exact hid
        · exact h.ids c hc
      · -- the one mark is set at the end of `mp_init`
        by_cases hb : c = w.bootcpu
        · rw [hb, ← hbootcpu]
          exact hboot (by rw [hbootcpu, ← hb]; exact hc)
        · rw [hupdate, Function.update_of_ne hb, (hcpus c).1] at hst
          cases hst

end Init

/-- Whatever table the firmware leaves: when `mp_init` has read it, and the boot processor has the
element of `cpus` with its own number, the processors are started one at a time, each one on its
own stack, in every interleaving of the steps of all of them. -/
theorem aps_boot {B : Boot} {m : Word → Byte} {me : ℕ} {mp : MpState}
    (hinit : mpInit B m (fun _ => {}) = .ok mp) (hboot : mp.bootcpu < mp.ncpu → mp.bootcpu = me)
    {kstacks : Word} {ops : List BootOp} {s : ApBoot}
    (hrun : Run (fun s op s' => bootStep kstacks me mp s op = some s') (apBootInit mp) ops s) :
    ApsBoot kstacks me mp s := by
  have hnum := mpInit_numbered hinit hboot
  have hinv : HandshakeInv kstacks me mp s :=
    hrun.invariant (fun _ _ _ h hs => HandshakeInv.step hnum h hs) (HandshakeInv.init kstacks hnum)
  exact hinv.apsBoot hnum

/-- Two processors. The second one is sent its interrupts, takes those it needs, loads its stack
and says that it has started, and `boot_aps` returns. -/
def startSecond : List BootOp :=
  List.replicate 10 .bsp ++
    [.receive 1#8, .receive 1#8, .receive 1#8, .ap 1#8, .ap 1#8, .bsp, .bsp]

theorem aps_boot_two : ∃ mp s, mpInit smallMachine (twoCpus 1) (fun _ => {}) = .ok mp ∧
    Run (fun s op s' => bootStep 0xF0200000#32 0 mp s op = some s') (apBootInit mp) startSecond s ∧
    s.bsp = .returned ∧ s.ap 1#8 = .started 0xF0210000#32 ∧ ApsBoot 0xF0200000#32 0 mp s := by
  -- the table is read and the whole run computed
  have hfields : (mpInit smallMachine (twoCpus 1) fun _ => {}).toOption.bind (fun mp =>
      (startSecond.foldlM (bootStep 0xF0200000#32 0 mp) (apBootInit mp)).map fun s =>
        (mp.bootcpu, s.bsp, s.ap 1#8)) =
      some (0, .returned, .started 0xF0210000#32) := by decide +kernel
  cases hinit : mpInit smallMachine (twoCpus 1) fun _ => {} with
  | error p =>
    rw [hinit] at hfields
    cases hfields
  | ok mp =>
    rw [hinit] at hfields
    obtain ⟨s, hfold, hs⟩ := Option.map_eq_some_iff.mp hfields
    obtain ⟨hbootcpu, hs⟩ := Prod.mk.inj hs
    obtain ⟨hbsp, hap⟩ := Prod.mk.inj hs
    have hrun := Run.of_foldlM hfold
    exact ⟨mp, s, rfl, hrun, hbsp, hap, aps_boot hinit (fun _ => hbootcpu) hrun⟩

end Jos
