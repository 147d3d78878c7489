import Jos.Kern.Spinlock
import Jos.Library.Run

/-!
# Mutual exclusion of a spin lock

Any number of processors use one lock, and their accesses interleave in any order.

* `lk->locked` is nonzero exactly while some processor is between its successful `xchg` and
  its releasing one (`LockPc.Inside`), and only one processor is there at a time.
* `lk->cpu` names a processor exactly while that processor is between its store and its
  clearing of the field (`LockPc.Recorded`), which is a part of the time it is inside.

So the field read by `holding` never names a processor outside its critical section, however
its two loads are interleaved with the accesses of others: `spinlock_exclusive`.
-/

namespace Jos

/-- Between the successful `xchg` of `spin_lock` and the releasing `xchg` of `spin_unlock`. -/
@[simp] def LockPc.Inside : LockPc → Prop
  | .setCpu | .setPcs | .critical | .unlockHolding | .clearPcs | .clearCpu | .release => True
  | _ => False

/-- Between the store of `thiscpu` to `lk->cpu` and the store of 0. -/
@[simp] def LockPc.Recorded : LockPc → Prop
  | .setPcs | .critical | .unlockHolding | .clearPcs | .clearCpu => True
  | _ => False

/-- The calls of `panic`. -/
@[simp] def LockPc.Panicked : LockPc → Prop
  | .panicLock | .panicUnlock => True
  | _ => False

theorem LockPc.Recorded.inside {pc : LockPc} (h : pc.Recorded) : pc.Inside := by
  cases pc <;> trivial

section

variable {Cpu : Type} {s s' : LockState Cpu}

/-- The invariant of a lock. -/
structure LockInv (s : LockState Cpu) : Prop where
  locked : s.lk.locked ≠ 0#32 ↔ ∃ c, (s.pc c).Inside
  unique : ∀ c c', (s.pc c).Inside → (s.pc c').Inside → c = c'
  cpu : ∀ c, s.lk.cpu = some c ↔ (s.pc c).Recorded
  quiet : ∀ c, ¬(s.pc c).Panicked

theorem lockInit_inv (lk : Spinlock Cpu) (name : String) : LockInv (lockInit Cpu lk name) where
  locked := by
    constructor
    · exact fun h => absurd rfl h
    · rintro ⟨c, hc⟩
      exact hc.elim
  unique c c' h _ := h.elim
  cpu c := by
    constructor
    · exact fun h => by cases h
    · exact fun h => h.elim
  quiet c h := h

namespace LockInv

variable [DecidableEq Cpu]

/-- A processor outside its critical section does not hold the lock. -/
theorem not_holding (h : LockInv s) {c : Cpu} (hc : ¬(s.pc c).Inside) : holding s.lk c = false := by
  have hne : s.lk.cpu ≠ some c := fun heq => hc ((h.cpu c).mp heq).inside
  simp [holding, hne]

/-- A processor that has recorded itself holds the lock. -/
theorem holds (h : LockInv s) {c : Cpu} (hc : (s.pc c).Recorded) : holding s.lk c = true := by
  have hlocked : s.lk.locked ≠ 0#32 := h.locked.mpr ⟨c, hc.inside⟩
  simp [holding, hlocked, (h.cpu c).mpr hc]

/-- A processor that does not panic leaves none that has. -/
theorem quiet_update (h : LockInv s) (c : Cpu) {pc : LockPc} (hq : ¬pc.Panicked) (d : Cpu) :
    ¬(Function.update s.pc c pc d).Panicked := by
  by_cases hd : d = c
  · rw [hd, Function.update_self]
    exact hq
  · rw [Function.update_of_ne hd]
    exact h.quiet d

/-- A processor moves on and leaves `locked` and `cpu` alone. -/
theorem move (h : LockInv s) {c : Cpu} {pc : LockPc} {lk : Spinlock Cpu}
    (hlocked : lk.locked = s.lk.locked) (hcpu : lk.cpu = s.lk.cpu)
    (hin : pc.Inside ↔ (s.pc c).Inside) (hrec : pc.Recorded ↔ (s.pc c).Recorded)
    (hq : ¬pc.Panicked) : LockInv ⟨lk, Function.update s.pc c pc⟩ := by
  -- neither the lock nor who is inside changes
  have hinside (d : Cpu) : (Function.update s.pc c pc d).Inside ↔ (s.pc d).Inside := by
    by_cases hd : d = c
    · rw [hd, Function.update_self, hin]
    · rw [Function.update_of_ne hd]
  have hrecorded (d : Cpu) : (Function.update s.pc c pc d).Recorded ↔ (s.pc d).Recorded := by
    by_cases hd : d = c
    · rw [hd, Function.update_self, hrec]
    · rw [Function.update_of_ne hd]
  refine ⟨?_, ?_, ?_, h.quiet_update c hq⟩
  · simp only [hlocked, hinside]
    exact h.locked
  · intro d d' hd hd'
    exact h.unique d d' ((hinside d).mp hd) ((hinside d').mp hd')
  · intro d
    simp only [hcpu, hrecorded]
    exact h.cpu d

/-- The successful `xchg`. -/
theorem enter (h : LockInv s) {c : Cpu} (hfree : s.lk.locked = 0#32) :
    LockInv ⟨{ s.lk with locked := 1#32 }, Function.update s.pc c .setCpu⟩ := by
  -- nobody is inside, and so nobody is recorded
  have hout (d : Cpu) : ¬(s.pc d).Inside := fun hd => h.locked.mpr ⟨d, hd⟩ hfree
  refine ⟨?_, ?_, ?_, h.quiet_update c (by simp)⟩
  · refine ⟨fun _ => ⟨c, ?_⟩, fun _ => by simp⟩
    simp only [Function.update_self]
    trivial
  · intro d d' hd hd'
    have hc (x : Cpu) (hx : (Function.update s.pc c .setCpu x).Inside) : x = c := by
      by_contra hne
      rw [Function.update_of_ne hne] at hx
      exact hout x hx
    rw [hc d hd, hc d' hd']
  · intro d
    have hnone : s.lk.cpu ≠ some d := fun heq => hout d ((h.cpu d).mp heq).inside
    constructor
    · exact fun heq => absurd heq hnone
    · intro hrec
      by_cases hd : d = c
      · simp only [hd, Function.update_self] at hrec
        exact hrec.elim
      · simp only [Function.update_of_ne hd] at hrec
        exact absurd hrec.inside (hout d)

/-- The releasing `xchg`. -/
theorem leave (h : LockInv s) {c : Cpu} (hpc : s.pc c = .release) :
    LockInv ⟨{ s.lk with locked := 0#32 }, Function.update s.pc c .outside⟩ := by
  have hc : (s.pc c).Inside := by rw [hpc]; trivial
  have hout (d : Cpu) : ¬(Function.update s.pc c .outside d).Inside := by
    by_cases hd : d = c
    · rw [hd, Function.update_self]
      exact fun hin => hin
    · rw [Function.update_of_ne hd]
      exact fun hin => hd (h.unique d c hin hc)
  refine ⟨⟨fun hl => absurd rfl hl, fun ⟨d, hd⟩ => absurd hd (hout d)⟩,
    fun d d' hd _ => absurd hd (hout d), ?_, h.quiet_update c (by simp)⟩
  intro d
  by_cases hd : d = c
  · -- the field was cleared before
    simp only [hd, Function.update_self]
    rw [h.cpu c, hpc]
    exact Iff.rfl
  · simp only [Function.update_of_ne hd]
    exact h.cpu d

/-- The processor inside writes `lk->cpu`: its own name, or 0. -/
theorem record (h : LockInv s) {c : Cpu} {pc : LockPc} {v : Option Cpu}
    (hc : (s.pc c).Inside) (hin : pc.Inside) (hv : ∀ d, v = some d ↔ d = c ∧ pc.Recorded)
    (hq : ¬pc.Panicked) : LockInv ⟨{ s.lk with cpu := v }, Function.update s.pc c pc⟩ := by
  have hinside (d : Cpu) : (Function.update s.pc c pc d).Inside ↔ (s.pc d).Inside := by
    by_cases hd : d = c
    · rw [hd, Function.update_self]
      exact iff_of_true hin hc
    · rw [Function.update_of_ne hd]
  refine ⟨?_, ?_, ?_, h.quiet_update c hq⟩
  · simp only [hinside]
    exact h.locked
  · intro d d' hd hd'
    exact h.unique d d' ((hinside d).mp hd) ((hinside d').mp hd')
  · intro d
    simp only [hv d]
    by_cases hd : d = c
    · simp only [hd, Function.update_self, true_and]
    · simp only [Function.update_of_ne hd, hd, false_and, false_iff]
      -- nobody else is inside
      exact fun hrec => hd (h.unique d c hrec.inside hc)

section Access

variable {c : Cpu} (h : LockInv s)
include h

/-- The load of `locked` in `spin_lock`: either way the processor stays outside. -/
theorem testLocked (hpc : s.pc c = .outside) : LockInv ⟨s.lk,
    Function.update s.pc c (if s.lk.locked ≠ 0#32 then .lockHolding else .acquire)⟩ := by
  split
  · exact h.move rfl rfl (by simp [hpc]) (by simp [hpc]) (by simp)
  · exact h.move rfl rfl (by simp [hpc]) (by simp [hpc]) (by simp)

/-- The load of `cpu` in `spin_lock`. The field names nobody who is outside, so there is no
panic. -/
theorem testCpu (hpc : s.pc c = .lockHolding) : LockInv ⟨s.lk,
    Function.update s.pc c (if s.lk.cpu = some c then .panicLock else .acquire)⟩ := by
  have hne : s.lk.cpu ≠ some c := by
    intro heq
    have hrec := (h.cpu c).mp heq
    rw [hpc] at hrec
    exact hrec
  rw [if_neg hne]
  exact h.move rfl rfl (by simp [hpc]) (by simp [hpc]) (by simp)

/-- The `xchg` of `spin_lock`. -/
theorem acquire (hpc : s.pc c = .acquire) : LockInv ⟨{ s.lk with locked := 1#32 },
    Function.update s.pc c (if s.lk.locked ≠ 0#32 then .acquire else .setCpu)⟩ := by
  by_cases hfree : s.lk.locked = 0#32
  · rw [if_neg (not_not.mpr hfree)]
    exact h.enter hfree
  · -- the lock was taken: it stays nonzero, and the processor stays in the loop
    rw [if_pos hfree, ← hpc, Function.update_eq_self]
    exact ⟨⟨fun _ => h.locked.mp hfree, fun _ => by simp⟩, h.unique, h.cpu, h.quiet⟩

theorem setCpu (hpc : s.pc c = .setCpu) :
    LockInv ⟨{ s.lk with cpu := some c }, Function.update s.pc c .setPcs⟩ := by
  refine h.record (by rw [hpc]; trivial) trivial (fun d => ?_) (fun hp => hp)
  rw [Option.some.injEq, eq_comm, and_iff_left]
  trivial

/-- The load of `locked` in `spin_unlock`, by the processor that holds the lock. -/
theorem testUnlocking (hpc : s.pc c = .critical) : LockInv ⟨s.lk,
    Function.update s.pc c (if s.lk.locked ≠ 0#32 then .unlockHolding else .panicUnlock)⟩ := by
  have hlocked : s.lk.locked ≠ 0#32 := h.locked.mpr ⟨c, by rw [hpc]; trivial⟩
  rw [if_pos hlocked]
  exact h.move rfl rfl (by simp [hpc]) (by simp [hpc]) (by simp)

/-- The load of `cpu` in `spin_unlock`. -/
theorem testOwner (hpc : s.pc c = .unlockHolding) : LockInv ⟨s.lk,
    Function.update s.pc c (if s.lk.cpu = some c then .clearPcs else .panicUnlock)⟩ := by
  have hown : s.lk.cpu = some c := (h.cpu c).mpr (by rw [hpc]; trivial)
  rw [if_pos hown]
  exact h.move rfl rfl (by simp [hpc]) (by simp [hpc]) (by simp)

theorem clearCpu (hpc : s.pc c = .clearCpu) :
    LockInv ⟨{ s.lk with cpu := none }, Function.update s.pc c .release⟩ := by
  refine h.record (by rw [hpc]; trivial) trivial (fun d => ?_) (fun hp => hp)
  simp

end Access

/-- Every access keeps the invariant. -/
theorem step {op : Cpu × List Word} (h : LockInv s) (hs : LockStep s op s') : LockInv s' := by
  obtain ⟨c, pcs⟩ := op
  obtain ⟨pc, lk, hacc, rfl⟩ := hs
  change lockAccess c pcs s.lk (s.pc c) = some (pc, lk) at hacc
  change LockInv ⟨lk, Function.update s.pc c pc⟩
  generalize hpc : s.pc c = pc₀ at hacc
  cases pc₀ with
  | outside =>
    obtain ⟨rfl, rfl⟩ := Prod.mk.inj (Option.some.inj hacc)
    exact h.testLocked hpc
  | lockHolding =>
    obtain ⟨rfl, rfl⟩ := Prod.mk.inj (Option.some.inj hacc)
    exact h.testCpu hpc
  | acquire =>
    obtain ⟨rfl, rfl⟩ := Prod.mk.inj (Option.some.inj hacc)
    exact h.acquire hpc
  | setCpu =>
    obtain ⟨rfl, rfl⟩ := Prod.mk.inj (Option.some.inj hacc)
    exact h.setCpu hpc
  | critical =>
    obtain ⟨rfl, rfl⟩ := Prod.mk.inj (Option.some.inj hacc)
    exact h.testUnlocking hpc
  | unlockHolding =>
    obtain ⟨rfl, rfl⟩ := Prod.mk.inj (Option.some.inj hacc)
    exact h.testOwner hpc
  | clearCpu =>
    obtain ⟨rfl, rfl⟩ := Prod.mk.inj (Option.some.inj hacc)
    exact h.clearCpu hpc
  | release =>
    obtain ⟨rfl, rfl⟩ := Prod.mk.inj (Option.some.inj hacc)
    exact h.leave hpc
  -- the stores to `pcs` change nothing that the invariant speaks of
  | setPcs =>
    obtain ⟨rfl, rfl⟩ := Prod.mk.inj (Option.some.inj hacc)
    exact h.move rfl rfl (by simp [hpc]) (by simp [hpc]) (by simp)
  | clearPcs =>
    obtain ⟨rfl, rfl⟩ := Prod.mk.inj (Option.some.inj hacc)
    exact h.move rfl rfl (by simp [hpc]) (by simp [hpc]) (by simp)
  | panicLock => cases hacc
  | panicUnlock => cases hacc

end LockInv

/-- What a spin lock promises in a state. -/
structure LockSafe [DecidableEq Cpu] (s : LockState Cpu) : Prop where
  /-- At most one processor is inside. -/
  exclusive : ∀ c c', (s.pc c).Inside → (s.pc c').Inside → c = c'
  /-- `holding` is false on a processor that is outside. -/
  outside : ∀ c, ¬(s.pc c).Inside → holding s.lk c = false
  /-- `holding` is true on a processor that evaluates it in `spin_unlock`. -/
  unlocking : ∀ c, s.pc c = .critical ∨ s.pc c = .unlockHolding → holding s.lk c = true
  /-- No processor has panicked. -/
  quiet : ∀ c, s.pc c ≠ .panicLock ∧ s.pc c ≠ .panicUnlock

theorem LockInv.safe [DecidableEq Cpu] (h : LockInv s) : LockSafe s where
  exclusive := h.unique
  outside _ hc := h.not_holding hc
  unlocking c hc := by
    apply h.holds
    obtain hc | hc := hc <;> rw [hc] <;> trivial
  quiet c := by
    have hq := h.quiet c
    constructor <;> intro heq <;> rw [heq] at hq <;> exact hq trivial

/-- In every interleaving of the accesses of any number of processors to a lock, at most one
of them is inside, `holding` tells each of them the truth, and no `panic` is reached. -/
theorem spinlock_exclusive [DecidableEq Cpu] (lk : Spinlock Cpu) (name : String)
    {ops : List (Cpu × List Word)} (hrun : Run LockStep (lockInit Cpu lk name) ops s) :
    LockSafe s :=
  (hrun.invariant (fun _ _ _ h hs => h.step hs) (lockInit_inv lk name)).safe

end

/-- Two processors: the second one finds the lock taken and waits until the first one has
released it. -/
theorem spinlock_exclusive_two : ∃ s : LockState Bool,
    Run LockStep (lockInit Bool {} "kernel_lock")
      [(false, []), (true, []), (false, []), (true, []), (false, []), (false, [])] s ∧
      s.pc false = .critical ∧ s.pc true = .acquire ∧ LockSafe s := by
  have hrun : Run LockStep (lockInit Bool {} "kernel_lock")
      [(false, []), (true, []), (false, []), (true, []), (false, []), (false, [])]
      ⟨{ locked := 1#32, name := "kernel_lock", cpu := some false, pcs := [] },
        fun c => if c then .acquire else .critical⟩ := by
    refine .cons ⟨_, _, rfl, rfl⟩ (.cons ⟨_, _, rfl, rfl⟩ (.cons ⟨_, _, rfl, rfl⟩
      (.cons ⟨_, _, rfl, rfl⟩ (.cons ⟨_, _, rfl, rfl⟩ (.cons ⟨_, _, rfl, ?_⟩ .nil)))))
    refine congrArg₂ LockState.mk rfl ?_
    ext c
    cases c <;> rfl
  exact ⟨_, hrun, rfl, rfl, spinlock_exclusive {} "kernel_lock" hrun⟩

end Jos
