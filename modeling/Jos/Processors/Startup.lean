import Jos.Kern.Init
import Jos.Processors.MpTable

/-!
# APIC ids and the numbers of processors

`mp_init` numbers the processors in the order of the table and stores the number as `cpu_id`,
`boot_aps` starts a processor by its `cpu_id`, and `cpunum` is the APIC id of the processor that
calls it. `startup_iff_ordered` says that the three agree only for a table that lists the APIC ids
`0`, `1`, `2` and so on in this order.
-/

namespace Jos

variable {B : Boot} {m : Word → Byte} {s : MpState}

/-- The APIC ids that `writes` sends a startup interrupt to, when the destination in `ICRHI` is
`dest`: an interrupt is sent by a write to `ICRLO`, and its delivery mode is in bits 8 to 10. -/
def startupTargets : Byte → List LapicWrite → List Byte
  | _, [] => []
  | dest, (index, value) :: ws =>
    if index = icrhi then startupTargets (BitVec.setWidth 8 (value >>> 24)) ws
    else if index = icrlo ∧ value &&& 0x700#32 = icrStartup then dest :: startupTargets dest ws
    else startupTargets dest ws

/-- `lapic_startap` sends two startup interrupts to one processor. -/
theorem startupTargets_lapicStartap (dest apicid : Byte) (ws : List LapicWrite) :
    startupTargets dest (lapicStartap apicid mpentryPaddr ++ ws) =
      apicid :: apicid :: startupTargets apicid ws := by
  have hid : BitVec.setWidth 8 ((apicid.setWidth 32 <<< 24 : Word) >>> 24) = apicid := by
    revert apicid
    decide
  have hinit : ¬(icrInit ||| icrLevel ||| icrAssert) &&& 0x700#32 = icrStartup := by decide
  have hinit' : ¬(icrInit ||| icrLevel) &&& 0x700#32 = icrStartup := by decide
  have hstart : (icrStartup ||| mpentryPaddr >>> 12) &&& 0x700#32 = icrStartup := by decide
  have hne : ¬icrlo = icrhi := by decide
  simp [lapicStartap, startupTargets, hid, hinit, hinit', hstart, hne]

/-- If each element of `cpus` has its own number as its id, and the processors with these ids
answer, then all of them are started but the one that does it. -/
theorem mem_startupTargets_bootApsLoop {answers : Byte → Bool} {self : ℕ} {cs : List ℕ}
    {cpus : ℕ → MpCpu} (hid : ∀ c ∈ cs, (cpus c).cpuId = BitVec.ofNat 8 c)
    (hlt : ∀ c ∈ cs, c < 256) (hans : ∀ c ∈ cs, answers (BitVec.ofNat 8 c) = true)
    (dest a : Byte) :
    a ∈ startupTargets dest (bootApsLoop answers self cs cpus) ↔
      ∃ c ∈ cs, c ≠ self ∧ a = BitVec.ofNat 8 c := by
  induction cs generalizing cpus dest with
  | nil => simp [bootApsLoop, startupTargets]
  | cons c cs ih =>
    have hlt' : ∀ d ∈ cs, d < 256 := fun d hd => hlt d (List.mem_cons_of_mem _ hd)
    have hans' : ∀ d ∈ cs, answers (BitVec.ofNat 8 d) = true := fun d hd =>
      hans d (List.mem_cons_of_mem _ hd)
    rw [bootApsLoop]
    by_cases hself : c = self
    · rw [if_pos hself, ih (fun d hd => hid d (List.mem_cons_of_mem _ hd)) hlt' hans']
      simp [hself]
    · -- the processor answers, so the loop goes on
      have hc : (BitVec.ofNat 8 c).toNat = c := by
        rw [BitVec.toNat_ofNat]
        exact Nat.mod_eq_of_lt (hlt c List.mem_cons_self)
      rw [if_neg hself]
      simp only [hid c List.mem_cons_self, hans c List.mem_cons_self, if_true, hc,
        Function.update_self, startupTargets_lapicStartap, List.mem_cons]
      rw [ih _ hlt' hans']
      · constructor
        · rintro (rfl | rfl | ⟨d, hd, hne, rfl⟩)
          · exact ⟨c, Or.inl rfl, hself, rfl⟩
          · exact ⟨c, Or.inl rfl, hself, rfl⟩
          · exact ⟨d, Or.inr hd, hne, rfl⟩
        · rintro ⟨d, rfl | hd, hne, rfl⟩
          · exact Or.inl rfl
          · exact Or.inr (Or.inr ⟨d, hd, hne, rfl⟩)
      · intro d hd
        have hold := hid d (List.mem_cons_of_mem _ hd)
        by_cases hdc : d = c
        · rw [hdc, Function.update_self]
        · rw [Function.update_of_ne hdc]
          exact hold

/-- The number that the processor of the entry `p` has for itself; `regs p` is its local APIC. -/
def ownNumber (s : MpState) (regs : MpProc → Lapic) (p : MpProc) : ℕ :=
  cpunum (lapicInit s.lapicaddr (regs p))

/-- The processors `ps` are identified by their APIC ids: `boot_aps` on the processor of `boot`
starts exactly the others, and each one finds its own element of `cpus`. -/
structure Identified (ps : List MpProc) (boot : MpProc) (regs : MpProc → Lapic)
    (answers : Byte → Bool) (s : MpState) : Prop where
  started : ∀ dest a, a ∈ startupTargets dest (bootAps answers (ownNumber s regs boot) s) ↔
    ∃ p ∈ ps, ¬p.IsBoot ∧ a = p.apicid
  own : ∀ k p, ps[k]? = some p → ownNumber s regs p = k

/-- With the numbers equal to the APIC ids, `mp_init` counts every processor. -/
theorem MpInited.ncpu_eq {es : List MpEntry} {lapicaddr : Word} {regs : MpProc → Lapic}
    (h : MpInited es lapicaddr s) (hlen : (mpProcs es).length ≤ ncpuMax)
    (hdistinct : ((mpProcs es).map MpProc.apicid).Nodup) (hne : mpProcs es ≠ [])
    (hown : ∀ p ∈ mpProcs es, ownNumber s regs p = p.apicid.toNat) :
    s.ncpu = (mpProcs es).length := by
  rw [h.ncpu]
  split
  · next hun =>
    -- without a local APIC every number is 0, so there is only one processor
    have hzero : ∀ p ∈ mpProcs es, p.apicid = 0#8 := by
      intro p hp
      have hp' := hown p hp
      rw [ownNumber, h.lapicaddr, if_pos hun] at hp'
      exact BitVec.eq_of_toNat_eq hp'.symm
    rcases hps : mpProcs es with _ | ⟨p, _ | ⟨q, ps⟩⟩
    · exact absurd hps hne
    · rfl
    · rw [hps] at hdistinct hzero
      have hpq : p.apicid = q.apicid := by
        rw [hzero p List.mem_cons_self, hzero q (List.mem_cons_of_mem _ List.mem_cons_self)]
      simp [hpq] at hdistinct
  · omega

/-- For every accepted table with no more than `NCPU` processors, with distinct APIC ids and one
boot processor, on which `cpunum` is the APIC id: the processors are identified by their APIC ids
if and only if the table lists them in the order of the ids, from 0 on. -/
theorem startup_iff_ordered {mp conf : Word} {said : List Message} {cpus : ℕ → MpCpu}
    (hconf : mpconfig B m = .ok (some (mp, conf), said)) (hrun : mpInit B m cpus = .ok s)
    (hlen : (mpProcs (confTable m conf)).length ≤ ncpuMax)
    (hdistinct : ((mpProcs (confTable m conf)).map MpProc.apicid).Nodup) {boot : MpProc}
    (hboot : boot ∈ mpProcs (confTable m conf))
    (hone : ∀ p ∈ mpProcs (confTable m conf), p.IsBoot ↔ p = boot) {regs : MpProc → Lapic}
    (hown : ∀ p ∈ mpProcs (confTable m conf), ownNumber s regs p = p.apicid.toNat)
    {answers : Byte → Bool}
    (hans : ∀ p ∈ mpProcs (confTable m conf), answers p.apicid = true) :
    Identified (mpProcs (confTable m conf)) boot regs answers s ↔
      ∀ (k : ℕ) (p : MpProc),
        (mpProcs (confTable m conf))[k]? = some p → p.apicid.toNat = k := by
  obtain ⟨s', hrun', h⟩ := mpInit_spec hconf cpus
  obtain rfl := ok_unique hrun hrun'
  generalize confTable m conf = es at *
  constructor
  · intro hid k p hk
    rw [← hown p (List.mem_of_getElem? hk), hid.own k p hk]
  · intro hord
    have hncpu := h.ncpu_eq hlen hdistinct (List.ne_nil_of_mem hboot) hown
    -- the APIC id of an entry is the number of its place
    have hplace (c : ℕ) (p : MpProc) (hc : (mpProcs es)[c]? = some p) :
        p.apicid = BitVec.ofNat 8 c := by
      rw [← hord c p hc, BitVec.ofNat_toNat, BitVec.setWidth_eq]
    have hat (c : ℕ) (hc : c ∈ List.range s.ncpu) : ∃ p, (mpProcs es)[c]? = some p := by
      rw [List.mem_range, hncpu] at hc
      exact ⟨_, List.getElem?_eq_getElem hc⟩
    have hmax : ncpuMax = 8 := rfl
    refine ⟨?_, fun k p hk => by rw [hown p (List.mem_of_getElem? hk), hord k p hk]⟩
    intro dest a
    rw [bootAps, mem_startupTargets_bootApsLoop]
    · constructor
      · rintro ⟨c, hc, hne, rfl⟩
        obtain ⟨p, hp⟩ := hat c hc
        refine ⟨p, List.mem_of_getElem? hp, ?_, (hplace c p hp).symm⟩
        rw [hone p (List.mem_of_getElem? hp)]
        rintro rfl
        exact hne (by rw [hown p hboot, hord c p hp])
      · rintro ⟨p, hp, hnot, rfl⟩
        obtain ⟨c, hc⟩ := List.mem_iff_getElem?.mp hp
        obtain ⟨hlt, -⟩ := List.getElem?_eq_some_iff.mp hc
        refine ⟨c, List.mem_range.mpr (by omega), ?_, hplace c p hc⟩
        intro hself
        apply hnot
        -- the same number, the same place
        rw [hone p hp]
        obtain ⟨b, hb⟩ := List.mem_iff_getElem?.mp hboot
        have hbc : b = c := by rw [hself, hown boot hboot, hord b boot hb]
        rw [hbc, hc] at hb
        exact Option.some.inj hb
    · intro c hc
      exact h.ids c (by rw [List.mem_range] at hc; omega)
    · intro c hc
      rw [List.mem_range] at hc
      omega
    · intro c hc
      obtain ⟨p, hp⟩ := hat c hc
      rw [← hplace c p hp]
      exact hans p (List.mem_of_getElem? hp)

/-- A local APIC with the id of a processor entry. -/
def idLapic (p : MpProc) : Lapic :=
  fun i => if i = lapicID then p.apicid.setWidth 32 <<< 24 else 0#32

/-- On a machine with a local APIC the number of a processor is its APIC id. -/
theorem ownNumber_idLapic (hs : s.lapicaddr ≠ 0#32) (p : MpProc) :
    ownNumber s idLapic p = p.apicid.toNat := by
  rw [ownNumber, lapicInit, if_neg hs]
  change ((p.apicid.setWidth 32 <<< 24 : Word) >>> 24).toNat = _
  generalize p.apicid = a
  revert a
  decide

/-- Two processors with the APIC ids 0 and `a`. -/
def twoCpus (a : Byte) : Word → Byte :=
  mpImage (mpTable 84 2 (procEntry ⟨0, 2⟩ ++ procEntry ⟨a, 0⟩))

theorem startup_ordered_two : ∃ s, mpInit smallMachine (twoCpus 1) (fun _ => {}) = .ok s ∧
    Identified [⟨0, 2⟩, ⟨1, 0⟩] ⟨0, 2⟩ idLapic (fun _ => true) s := by
  have hconf : mpconfig smallMachine (twoCpus 1) = .ok (some (imageMp, imageConf), []) := by
    decide +kernel
  have hprocs : mpProcs (confTable (twoCpus 1) imageConf) = [⟨0, 2⟩, ⟨1, 0⟩] := by decide +kernel
  have hunknown : MpEntry.unknown ∉ confTable (twoCpus 1) imageConf := by decide +kernel
  have hlapic : confLapicaddr (twoCpus 1) imageConf ≠ 0#32 := by decide +kernel
  obtain ⟨s, hrun, h⟩ := mpInit_spec hconf fun _ => {}
  have hs : s.lapicaddr ≠ 0#32 := by
    rw [h.lapicaddr, if_neg hunknown]
    exact hlapic
  refine ⟨s, hrun, ?_⟩
  rw [← hprocs]
  have hboot : (⟨0, 2⟩ : MpProc) ∈ mpProcs (confTable (twoCpus 1) imageConf) := by
    rw [hprocs]
    decide
  -- the processors are numbered as they stand in the table
  apply (startup_iff_ordered hconf hrun (by rw [hprocs]; decide) (by rw [hprocs]; decide) hboot
    (by rw [hprocs]; decide) (fun p _ => ownNumber_idLapic hs p) fun _ _ => rfl).mpr
  rw [hprocs]
  intro k p hk
  match k with
  | 0 =>
    obtain rfl := Option.some.inj hk
    rfl
  | 1 =>
    obtain rfl := Option.some.inj hk
    rfl

/-- With the APIC ids 0 and 2 the second processor is not started, and would take an element of
`cpus` that is not its own. -/
theorem startup_sparse :
    mpconfig smallMachine (twoCpus 2) = .ok (some (imageMp, imageConf), []) ∧
    mpProcs (confTable (twoCpus 2) imageConf) = [⟨0, 2⟩, ⟨2, 0⟩] ∧
    ∃ s, mpInit smallMachine (twoCpus 2) (fun _ => {}) = .ok s ∧
      (∀ p, ownNumber s idLapic p = p.apicid.toNat) ∧
      ¬Identified [⟨0, 2⟩, ⟨2, 0⟩] ⟨0, 2⟩ idLapic (fun _ => true) s := by
  have hconf : mpconfig smallMachine (twoCpus 2) = .ok (some (imageMp, imageConf), []) := by
    decide +kernel
  have hunknown : MpEntry.unknown ∉ confTable (twoCpus 2) imageConf := by decide +kernel
  have hlapic : confLapicaddr (twoCpus 2) imageConf ≠ 0#32 := by decide +kernel
  obtain ⟨s, hrun, h⟩ := mpInit_spec hconf fun _ => {}
  have hs : s.lapicaddr ≠ 0#32 := by
    rw [h.lapicaddr, if_neg hunknown]
    exact hlapic
  refine ⟨hconf, by decide +kernel, s, hrun, ownNumber_idLapic hs, fun hid => ?_⟩
  have hown := hid.own 1 ⟨2, 0⟩ rfl
  rw [ownNumber_idLapic hs] at hown
  exact absurd hown (by decide)

end Jos
