import Jos.Memory.LoadSteps
import Jos.Memory.TlbSteps

/-!
# Loading a program while the TLB does nothing

What `load_icode` does when no TLB is looked at is one of the things it may do with one: before each
access the TLB may as well have nothing cached that matters, and the access goes through the page
tables (`loadIcode_exec`). The converse needs that what is cached is right, and that is
`Jos.Memory.TlbLoad`.
-/

namespace Jos

variable {V : Variables} {B : Boot} {σ τ' : State} {cpu n : ℕ} {e : Fin nenv}
  {va dst src binary ph : Word} {as : List LoadAction}

/-- The data of the kernel has nothing to do with the TLB. -/
def Variables.Untouched (V : Variables) (cpu : ℕ) : Prop := ∀ σ, V (hideTlb cpu σ) = V σ

namespace Stepwise

theorem lcr3_exec (cpu : ℕ) (pa : Word) (σ : State) :
    ∃ σ', lcr3 cpu pa σ () σ' ∧ hideTlb cpu σ' = Jos.lcr3 cpu pa (hideTlb cpu σ) :=
  (computes_lcr3 pa).complete rfl

theorem setEntry_exec (cpu : ℕ) (e : Fin nenv) (entry : Word) (σ : State) :
    ∃ σ', write cpu (setEntry e entry) σ () σ' ∧
      hideTlb cpu σ' = setEntry e entry (hideTlb cpu σ) :=
  (computes_write (f := setEntry e entry) fun _ => rfl).complete rfl

theorem read_exec {α : Type} (f : State → α) : read cpu f σ (f (hideTlb cpu σ)) σ := by
  refine ⟨σ, .refl, congrArg Except.ok (Prod.ext rfl ?_)⟩
  change (σ.setTlb cpu []).setTlb cpu (σ.cpus cpu).tlb = σ
  rw [setTlb_setTlb, setTlb_self rfl]

section Reading

variable (hV : V.Untouched cpu)
include hV

theorem loadByte_exec {b : Byte} (h : Jos.loadByte V cpu va (hideTlb cpu σ) = .ok b) :
    loadByte cpu V va σ b σ := by
  unfold Jos.loadByte at h
  -- `cr3` and the page tables are in sight
  rw [hideTlb_cr3] at h
  cases haccess : kernelAccess σ (pgnum (σ.cpus cpu).cr3) va with
  | none =>
    rw [show kernelAccess (hideTlb cpu σ) = kernelAccess σ from rfl, haccess] at h
    cases h
  | some r =>
    obtain ⟨f, w⟩ := r
    rw [show kernelAccess (hideTlb cpu σ) = kernelAccess σ from rfl, haccess] at h
    obtain rfl := Except.ok.inj h
    refine ⟨f, w, .refl, .inr haccess, ?_⟩
    rw [kernelByte, hV σ]
    rfl

theorem loadValue_exec {v : ℕ} (h : Jos.loadValue V cpu n va (hideTlb cpu σ) = .ok v) :
    loadValue cpu V n va σ v σ := by
  induction n generalizing va v with
  | zero => exact ⟨(Except.ok.inj h).symm, rfl⟩
  | succ n ih =>
    obtain ⟨b, hb, h⟩ := bind_eq_ok.mp h
    obtain ⟨w, hw, h⟩ := bind_eq_ok.mp h
    exact ⟨b, σ, loadByte_exec hV hb, w, σ, ih hw, (Except.ok.inj h).symm, rfl⟩

theorem loadWord_exec {w : Word} (h : Jos.loadWord V cpu va (hideTlb cpu σ) = .ok w) :
    loadWord cpu V va σ w σ := by
  obtain ⟨v, hv, h⟩ := bind_eq_ok.mp h
  exact ⟨v, σ, loadValue_exec hV hv, (Except.ok.inj h).symm, rfl⟩

end Reading

theorem storeByte_exec {b : Byte} (h : Jos.storeByte cpu va b (hideTlb cpu σ) = .ok τ') :
    ∃ σ', storeByte cpu va b σ () σ' ∧ hideTlb cpu σ' = τ' := by
  unfold Jos.storeByte at h
  rw [hideTlb_cr3] at h
  split at h
  · next f haccess =>
    obtain rfl := Except.ok.inj h
    exact ⟨_, ⟨σ, f, .refl, .inr haccess, rfl⟩, rfl⟩
  · cases h

theorem storeBytes_exec {bs : List Byte} (h : Jos.storeBytes cpu bs va (hideTlb cpu σ) = .ok τ') :
    ∃ σ', storeBytes cpu bs va σ () σ' ∧ hideTlb cpu σ' = τ' := by
  induction bs generalizing σ va with
  | nil => exact ⟨σ, ⟨rfl, rfl⟩, Except.ok.inj h⟩
  | cons b bs ih =>
    obtain ⟨_, hstore, hrest⟩ := bind_eq_ok.mp h
    obtain ⟨σ₁, hrun₁, rfl⟩ := storeByte_exec hstore
    obtain ⟨σ', hrun', hhide⟩ := ih hrest
    exact ⟨σ', ⟨(), σ₁, hrun₁, hrun'⟩, hhide⟩

section Loading

variable (hV : V.Untouched cpu)
include hV

theorem memmoveUp_exec (h : Jos.memmoveUp V cpu n dst src (hideTlb cpu σ) = .ok τ') :
    ∃ σ', memmoveUp cpu V n dst src σ () σ' ∧ hideTlb cpu σ' = τ' := by
  induction n generalizing σ dst src with
  | zero => exact ⟨σ, ⟨rfl, rfl⟩, Except.ok.inj h⟩
  | succ n ih =>
    obtain ⟨b, hb, h⟩ := bind_eq_ok.mp h
    obtain ⟨_, hstore, hrest⟩ := bind_eq_ok.mp h
    obtain ⟨σ₁, hrun₁, rfl⟩ := storeByte_exec hstore
    obtain ⟨σ', hrun', hhide⟩ := ih hrest
    exact ⟨σ', ⟨b, σ, loadByte_exec hV hb, (), σ₁, hrun₁, hrun'⟩, hhide⟩

theorem memmoveDown_exec (h : Jos.memmoveDown V cpu n dst src (hideTlb cpu σ) = .ok τ') :
    ∃ σ', memmoveDown cpu V n dst src σ () σ' ∧ hideTlb cpu σ' = τ' := by
  induction n generalizing σ with
  | zero => exact ⟨σ, ⟨rfl, rfl⟩, Except.ok.inj h⟩
  | succ n ih =>
    obtain ⟨b, hb, h⟩ := bind_eq_ok.mp h
    obtain ⟨_, hstore, hrest⟩ := bind_eq_ok.mp h
    obtain ⟨σ₁, hrun₁, rfl⟩ := storeByte_exec hstore
    obtain ⟨σ', hrun', hhide⟩ := ih hrest
    exact ⟨σ', ⟨b, σ, loadByte_exec hV hb, (), σ₁, hrun₁, hrun'⟩, hhide⟩

theorem memmove_exec {n : Word} (h : Jos.memmove V cpu dst src n (hideTlb cpu σ) = .ok τ') :
    ∃ σ', memmove cpu V dst src n σ () σ' ∧ hideTlb cpu σ' = τ' := by
  unfold Jos.memmove at h
  unfold memmove
  split at h
  · next hover =>
    rw [if_pos hover]
    exact memmoveDown_exec hV h
  · next hover =>
    rw [if_neg hover]
    exact memmoveUp_exec hV h

/-- The three actions for a header. -/
theorem loadSegment_exec
    (h : Jos.loadSegment V B cpu e binary ph (hideTlb cpu σ) = ⟨as, .ok τ'⟩) :
    ∃ σ', loadSegment B cpu V e binary ph σ as σ' ∧ hideTlb cpu σ' = τ' := by
  obtain ⟨type, htype, h⟩ := Load.quiet_bind_eq.mp h
  by_cases hload : type = elfProgLoad
  · rw [if_pos hload] at h
    -- the run is taken apart at its three actions, and each one is done with the TLB there
    obtain ⟨memsz, hmemsz, h⟩ := Load.quiet_bind_eq.mp h
    obtain ⟨va, hva, h⟩ := Load.quiet_bind_eq.mp h
    obtain ⟨_, _, _, hact₁, h₁, rfl⟩ := Logged.bind_eq_mk.mp h
    obtain ⟨rfl, hregion⟩ := Logged.mk.inj hact₁
    obtain ⟨σ₁, hrun₁, rfl⟩ := (computes_regionAlloc e va memsz).complete (done_eq_ok.mpr hregion)
    obtain ⟨filesz, hfilesz, h₁⟩ := Load.quiet_bind_eq.mp h₁
    obtain ⟨offset, hoffset, h₁⟩ := Load.quiet_bind_eq.mp h₁
    obtain ⟨va', hva', h₁⟩ := Load.quiet_bind_eq.mp h₁
    obtain ⟨_, _, _, hact₂, h₂, rfl⟩ := Logged.bind_eq_mk.mp h₁
    obtain ⟨rfl, hcopy⟩ := Logged.mk.inj hact₂
    obtain ⟨σ₂, hrun₂, rfl⟩ := memmove_exec hV hcopy
    obtain ⟨filesz', hfilesz', h₂⟩ := Load.quiet_bind_eq.mp h₂
    obtain ⟨memsz', hmemsz', h₂⟩ := Load.quiet_bind_eq.mp h₂
    obtain ⟨va'', hva'', h₂⟩ := Load.quiet_bind_eq.mp h₂
    obtain ⟨rfl, hclear⟩ := Logged.mk.inj h₂
    obtain ⟨σ₃, hrun₃, hhide⟩ := storeBytes_exec hclear
    -- the fields are read again with a TLB, in the same states
    refine ⟨σ₃, ⟨type, σ, loadWord_exec hV htype, ?_⟩, hhide⟩
    simp only [if_pos hload]
    exact ⟨memsz, σ, loadWord_exec hV hmemsz, va, σ, loadWord_exec hV hva, (), σ₁, hrun₁,
      filesz, σ₁, loadWord_exec hV hfilesz, offset, σ₁, loadWord_exec hV hoffset,
      va', σ₁, loadWord_exec hV hva', (), σ₂, hrun₂, filesz', σ₂, loadWord_exec hV hfilesz',
      memsz', σ₂, loadWord_exec hV hmemsz', va'', σ₂, loadWord_exec hV hva'', (), σ₃, hrun₃,
      rfl, rfl⟩
  · rw [if_neg hload] at h
    obtain ⟨rfl, hhide⟩ := Logged.mk.inj h
    refine ⟨σ, ⟨type, σ, loadWord_exec hV htype, ?_⟩, Except.ok.inj hhide⟩
    simp only [if_neg hload]
    exact ⟨rfl, rfl⟩

theorem loadSegments_exec
    (h : Jos.loadSegments V B cpu e binary n ph (hideTlb cpu σ) = ⟨as, .ok τ'⟩) :
    ∃ σ', loadSegments B cpu V e binary n ph σ as σ' ∧ hideTlb cpu σ' = τ' := by
  induction n generalizing σ ph as with
  | zero =>
    obtain ⟨rfl, hhide⟩ := Logged.mk.inj h
    exact ⟨σ, ⟨rfl, rfl⟩, Except.ok.inj hhide⟩
  | succ n ih =>
    obtain ⟨first, _, rest, hfirst, hrest, rfl⟩ := Logged.bind_eq_mk.mp h
    obtain ⟨σ₁, hrun₁, rfl⟩ := loadSegment_exec hV hfirst
    obtain ⟨σ', hrun', hhide⟩ := ih hrest
    exact ⟨σ', ⟨first, σ₁, hrun₁, rest, σ', hrun', rfl, rfl⟩, hhide⟩

/-- What `load_icode` does without a TLB. -/
theorem loadIcode_exec (h : Jos.loadIcode V B cpu e binary (hideTlb cpu σ) = ⟨as, .ok τ'⟩) :
    ∃ σ', loadIcode B cpu V e binary σ as σ' ∧ hideTlb cpu σ' = τ' := by
  obtain ⟨phoff, hphoff, h⟩ := Load.quiet_bind_eq.mp h
  obtain ⟨phnum, hphnum, h⟩ := Load.quiet_bind_eq.mp h
  obtain ⟨pa, hpa, h⟩ := Load.quiet_bind_eq.mp h
  -- the directory of `e`, the headers, the entry point, the directory of the kernel, the stack
  obtain ⟨σ₁, hrun₁, hhide₁⟩ := lcr3_exec cpu pa σ
  rw [← hhide₁] at h
  obtain ⟨actions, _, _, hsegments, h, rfl⟩ := Logged.bind_eq_mk.mp h
  obtain ⟨σ₂, hrun₂, rfl⟩ := loadSegments_exec hV hsegments
  obtain ⟨entry, hentry, h⟩ := Load.quiet_bind_eq.mp h
  obtain ⟨σ₃, hrun₃, hhide₃⟩ := setEntry_exec cpu e entry σ₂
  rw [← hhide₃] at h
  obtain ⟨pa', hpa', h⟩ := Load.quiet_bind_eq.mp h
  obtain ⟨σ₄, hrun₄, hhide₄⟩ := lcr3_exec cpu pa' σ₃
  rw [← hhide₄] at h
  obtain ⟨rfl, hstack⟩ := Logged.mk.inj h
  obtain ⟨σ₅, hrun₅, hhide⟩ :=
    (computes_regionAlloc e _ _).complete (a := ()) (done_eq_ok.mpr hstack)
  rw [List.append_nil]
  exact ⟨σ₅, ⟨phoff, σ, loadWord_exec hV hphoff, phnum, σ, loadValue_exec hV hphnum, _, σ,
    read_exec _, pa, σ, ⟨hpa, rfl⟩, (), σ₁, hrun₁, actions, σ₂, hrun₂, entry, σ₂,
    loadWord_exec hV hentry, (), σ₃, hrun₃, pa', σ₃, ⟨hpa', rfl⟩, (), σ₄, hrun₄, (), σ₅, hrun₅,
    rfl, rfl⟩, hhide⟩

end Loading

end Stepwise

end Jos
