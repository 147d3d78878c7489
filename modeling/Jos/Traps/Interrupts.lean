import Jos.Kern.Picirq
import Jos.Library.Run

/-!
# What the interrupt controllers let through

The driver and the controllers, from power-on. Whatever the controllers were in the middle of,
`pic_init` leaves them as `programmed` says, and from then on only the mask changes, and the lines
of the slave that are being served: the driver never tells the slave that a service has ended.

The invariant `PicInv` speaks of the controllers as they will be when the running call has
written what it still has to (`replay`). Devices that ask for service in between do not matter to
it, because what is programmed depends on the writes only.
-/

namespace Jos

/-- The controllers, when these events have happened. -/
def replay (events : List PicEvent) (s : Pics) : Pics := events.foldl (fun s e => e.run s) s

@[simp] theorem replay_nil (s : Pics) : replay [] s = s := rfl

@[simp] theorem replay_cons (e : PicEvent) (events : List PicEvent) (s : Pics) :
    replay (e :: events) s = replay events (e.run s) := rfl

theorem replay_append (events events' : List PicEvent) (s : Pics) :
    replay (events ++ events') s = replay events' (replay events s) :=
  List.foldl_append ..

theorem run_settings (e : PicEvent) (s : Pics) :
    (e.run s).settings = (e.run s.settings).settings := by
  cases e with
  | cprintf fmt args => rfl
  | outb port data =>
    unfold PicEvent.run Pics.outb Pics.settings
    dsimp only
    split_ifs
    · rw [Pic.command_settings]; rfl
    · rw [Pic.data_settings]; rfl
    · rw [Pic.command_settings]; rfl
    · rw [Pic.data_settings]; rfl
    · rfl

/-- What is programmed depends on what was, and on the writes. -/
theorem replay_settings (events : List PicEvent) (s : Pics) :
    (replay events s).settings = (replay events s.settings).settings := by
  induction events generalizing s with
  | nil => rfl
  | cons e events ih =>
    calc (replay events (e.run s)).settings = (replay events (e.run s).settings).settings := ih _
      _ = (replay events (e.run s.settings).settings).settings := by rw [run_settings]
      _ = (replay events (e.run s.settings)).settings := (ih _).symm

theorem replay_congr {events : List PicEvent} {s s' : Pics} (h : s.settings = s'.settings) :
    (replay events s).settings = (replay events s').settings := by
  rw [replay_settings, h, ← replay_settings]

/-- The controllers as `pic_init` sets them up, with this mask and these lines of the slave being
served. -/
def programmed (mask : BitVec 16) (isr : BitVec 8) : Pics where
  master :=
    { irr := 0#8, isr := 0#8, imr := mask.setWidth 8, icw1 := 0x11#8, icw2 := 32#8
      icw3 := 1#8 <<< irqSlave, icw4 := 3#8, specialMask := true, readIsr := false
      expects := .mask }
  slave :=
    { irr := 0#8, isr := isr, imr := (mask >>> 8).setWidth 8, icw1 := 0x11#8, icw2 := 40#8
      icw3 := 2#8, icw4 := 1#8, specialMask := true, readIsr := false, expects := .mask }

/-! ### What a call leaves -/

@[simp] theorem outb_master_command (v : BitVec 8) (s : Pics) :
    s.outb ioPic1 v = { s with master := s.master.command v } := rfl

@[simp] theorem outb_master_data (v : BitVec 8) (s : Pics) :
    s.outb (ioPic1 + 1#32) v = { s with master := s.master.data v } := rfl

@[simp] theorem outb_slave_command (v : BitVec 8) (s : Pics) :
    s.outb ioPic2 v = { s with slave := s.slave.command v } := rfl

@[simp] theorem outb_slave_data (v : BitVec 8) (s : Pics) :
    s.outb (ioPic2 + 1#32) v = { s with slave := s.slave.data v } := rfl

theorem replay_picInitWrites (s : Pics) :
    (replay picInitWrites s).settings = programmed 0#16 0#8 := by
  have hicw : (0x11#8).getLsbD 4 = true ∧ (0x11#8).getLsbD 1 = false ∧
      (0x11#8).getLsbD 0 = true := by decide
  simp only [picInitWrites, replay_cons, replay_nil, PicEvent.run, outb_master_command,
    outb_master_data, outb_slave_command, outb_slave_data,
    Pic.command_data hicw.1 hicw.2.1 hicw.2.2]
  rfl

/-- The line that `irq_setmask_8259A` prints. -/
def announce (mask : BitVec 16) : List PicEvent :=
  [.cprintf "enabled interrupts:" []] ++
    ((List.range 16).filter fun i => (~~~mask).getLsbD i).map (fun i => .cprintf " %d" [i]) ++
    [.cprintf "\n" []]

theorem irqSetmask8259A_eq {s : Picirq} (h : s.didinit = true) (mask : BitVec 16) :
    irqSetmask8259A mask s = ({ s with irqMask8259A := mask },
      .outb (ioPic1 + 1#32) (mask.setWidth 8) ::
        .outb (ioPic2 + 1#32) ((mask >>> 8).setWidth 8) :: announce mask) := by
  simp [irqSetmask8259A, h, announce]

theorem irqSetmask8259A_early {s : Picirq} (h : s.didinit = false) (mask : BitVec 16) :
    irqSetmask8259A mask s = ({ s with irqMask8259A := mask }, []) := by
  simp [irqSetmask8259A, h]

theorem replay_announce (mask : BitVec 16) (s : Pics) : replay (announce mask) s = s := by
  have hmap : ∀ (is : List ℕ) (t : Pics),
      replay (is.map fun i => .cprintf " %d" [i]) t = t := by
    intro is t
    induction is generalizing t with
    | nil => rfl
    | cons i is ih => exact ih t
  unfold announce
  rw [replay_append, replay_append, hmap]
  rfl

theorem shown_announce (mask : BitVec 16) :
    (announce mask).flatMap PicEvent.shown = announce mask := by
  have hmap : ∀ is : List ℕ,
      (is.map fun i => PicEvent.cprintf " %d" [i]).flatMap PicEvent.shown =
        is.map fun i => .cprintf " %d" [i] := by
    intro is
    induction is with
    | nil => rfl
    | cons i is ih =>
      rw [List.map_cons, List.flatMap_cons, ih]
      rfl
  unfold announce
  rw [List.flatMap_append, List.flatMap_append, hmap]
  rfl

/-- What `irq_setmask_8259A` leaves of controllers that are set up. -/
theorem replay_setmask {s : Pics} {old : BitVec 16} {isr : BitVec 8}
    (h : s.settings = programmed old isr) (mask : BitVec 16) :
    (replay (.outb (ioPic1 + 1#32) (mask.setWidth 8) ::
      .outb (ioPic2 + 1#32) ((mask >>> 8).setWidth 8) :: announce mask) s).settings =
        programmed mask isr := by
  rw [replay_congr (h.trans (by rfl : _ = (programmed old isr).settings)), replay_cons,
    replay_cons, replay_announce]
  rfl

/-- The mask that the controllers have when the running call is over: after `pic_init` with
everything masked it is not set again, and the initialization has cleared it. -/
def PicSystem.effective (s : PicSystem) : BitVec 16 :=
  if s.last = some .init ∧ s.driver.irqMask8259A = 0xFFFF#16 then 0#16
  else s.driver.irqMask8259A

/-- What the last call prints. -/
def PicSystem.announced (s : PicSystem) : List PicEvent :=
  if s.last = some .init ∧ s.driver.irqMask8259A = 0xFFFF#16 then []
  else announce s.driver.irqMask8259A

/-- `pic_init`, whatever the controllers were in the middle of. -/
theorem picInit_eq (s : Picirq) :
    (picInit s).1 = { s with didinit := true } ∧
      (∀ pics : Pics, (replay (picInit s).2 pics).settings =
        programmed (if s.irqMask8259A = 0xFFFF#16 then 0#16 else s.irqMask8259A) 0#8) ∧
      (picInit s).2.flatMap PicEvent.shown =
        if s.irqMask8259A = 0xFFFF#16 then [] else announce s.irqMask8259A := by
  unfold picInit
  by_cases hmask : s.irqMask8259A = 0xFFFF#16
  · simp only [hmask, ne_eq, not_true_eq_false, if_false, if_true]
    exact ⟨trivial, replay_picInitWrites, rfl⟩
  · simp only [hmask, ne_eq, not_false_eq_true, if_true, if_false,
      irqSetmask8259A_eq (s := { s with didinit := true }) rfl]
    refine ⟨trivial, fun pics => ?_, ?_⟩
    · rw [replay_append]
      exact replay_setmask (replay_picInitWrites pics) _
    · rw [List.flatMap_append, List.flatMap_cons, List.flatMap_cons, shown_announce]
      rfl

/-! ### The invariant -/

/-- The lines that the processor was given since `pic_init` was last called. -/
def PicSystem.lines (s : PicSystem) : List (Fin 16) := s.taken.filterMap Taken.line

theorem mem_lines_append {xs : List Taken} {x : Taken} {n : Fin 16} :
    n ∈ (xs ++ [x]).filterMap Taken.line ↔ n ∈ xs.filterMap Taken.line ∨ x.line = some n := by
  simp [List.filterMap_append]

/-- What holds of the driver and the controllers after these steps. -/
structure PicInv (ops : List PicOp) (s : PicSystem) : Prop where
  didinit : s.driver.didinit = true ↔ .call .init ∈ ops
  idle : s.driver.didinit = false → s.todo = []
  settings : s.driver.didinit = true → ∃ isr,
    (replay s.todo s.pics).settings = programmed s.effective isr ∧
      ∀ i, Pics.slaveLine i ∈ s.lines → isr.getLsbD i = true
  printed : s.driver.didinit = true →
    s.printed ++ s.todo.flatMap PicEvent.shown = s.announced

theorem PicInv.start (pics : Pics) : PicInv [] { pics := pics } where
  didinit := by simp
  idle := fun _ => rfl
  settings := fun h => by cases h
  printed := fun h => by cases h

/-- Controllers that are set up are cascaded. -/
theorem cascaded_of_settings {s : Pics} {mask : BitVec 16} {isr : BitVec 8}
    (h : s.settings = programmed mask isr) : Pics.Cascaded 2 s where
  master_icw3 := congrArg (fun t => t.master.icw3) h
  slave_icw3 := congrArg (fun t => t.slave.icw3) h
  master_isr := congrArg (fun t => t.master.isr) h
  master_autoEoi := by
    have hicw4 : s.master.icw4 = 3#8 := congrArg (fun t => t.master.icw4) h
    rw [Pic.autoEoi, hicw4]
    decide
  slave_autoEoi := by
    have hicw4 : s.slave.icw4 = 1#8 := congrArg (fun t => t.slave.icw4) h
    rw [Pic.autoEoi, hicw4]
    decide
  master_x86Mode := by
    have hicw4 : s.master.icw4 = 3#8 := congrArg (fun t => t.master.icw4) h
    rw [Pic.x86Mode, hicw4]
    decide
  slave_x86Mode := by
    have hicw4 : s.slave.icw4 = 1#8 := congrArg (fun t => t.slave.icw4) h
    rw [Pic.x86Mode, hicw4]
    decide

variable {ops : List PicOp} {s t : PicSystem}

theorem PicInv.signal (h : PicInv ops s) (n : Fin 16) (on : Bool) :
    PicInv (ops ++ [.signal n on]) { s with pics := s.pics.signal n on } where
  didinit := by simpa using h.didinit
  idle := h.idle
  settings := fun hd => by
    obtain ⟨isr, hset, hlines⟩ := h.settings hd
    exact ⟨isr, (replay_congr (Pics.signal_settings n on s.pics)).trans hset, hlines⟩
  printed := h.printed

theorem PicInv.go {e : PicEvent} {todo : List PicEvent} (h : PicInv ops s)
    (htodo : s.todo = e :: todo) :
    PicInv (ops ++ [.go])
      { s with pics := e.run s.pics, todo := todo, printed := s.printed ++ e.shown } where
  didinit := by simpa using h.didinit
  idle := fun hd => by
    have hnil := h.idle hd
    rw [htodo] at hnil
    cases hnil
  settings := fun hd => by
    have hset := h.settings hd
    rw [htodo] at hset
    exact hset
  printed := fun hd => by
    have hprinted := h.printed hd
    rw [htodo, List.flatMap_cons, ← List.append_assoc] at hprinted
    exact hprinted

theorem PicInv.init (ops : List PicOp) (s : PicSystem) :
    PicInv (ops ++ [.call .init])
      { s with
        driver := (picInit s.driver).1, todo := (picInit s.driver).2, last := some .init
        printed := [], taken := [] } := by
  obtain ⟨hdriver, hreplay, hshown⟩ := picInit_eq s.driver
  rw [hdriver]
  refine ⟨by simp, fun hd => ?_, fun _ => ⟨0#8, ?_, fun i hi => ?_⟩, fun _ => ?_⟩
  · cases hd
  · rw [hreplay]
    simp [PicSystem.effective]
  · cases hi
  · rw [List.nil_append, hshown]
    simp [PicSystem.announced]

theorem PicInv.setmask (h : PicInv ops s) (htodo : s.todo = []) (mask : BitVec 16) :
    PicInv (ops ++ [.call (.setmask mask)])
      { s with
        driver := (irqSetmask8259A mask s.driver).1, todo := (irqSetmask8259A mask s.driver).2
        last := some (.setmask mask), printed := [] } := by
  cases hd : s.driver.didinit with
  | false =>
    have hno : ¬PicOp.call .init ∈ ops := fun hmem => by simp [h.didinit.mpr hmem] at hd
    rw [irqSetmask8259A_early hd]
    refine ⟨by simpa [hd] using hno, fun _ => rfl, fun hc => ?_, fun hc => ?_⟩
    all_goals exact absurd (hd.symm.trans hc) Bool.false_ne_true
  | true =>
    obtain ⟨isr, hset, hlines⟩ := h.settings hd
    rw [htodo, replay_nil] at hset
    rw [irqSetmask8259A_eq hd]
    refine ⟨by simpa [hd] using h.didinit, fun hc => ?_, fun _ => ⟨isr, ?_, hlines⟩, fun _ => ?_⟩
    · exact absurd (hc.symm.trans hd) Bool.false_ne_true
    · rw [replay_setmask hset]
      simp [PicSystem.effective]
    · rw [List.flatMap_cons, List.flatMap_cons, shown_announce]
      simp [PicSystem.announced, PicEvent.shown]

theorem PicInv.acknowledge (h : PicInv ops s) (htodo : s.todo = []) :
    PicInv (ops ++ [.acknowledge])
      { s with
        pics := s.pics.acknowledge.2, taken := s.taken ++ [s.pics.acknowledge.1] } where
  didinit := by simpa using h.didinit
  idle := h.idle
  printed := h.printed
  settings := fun hd => by
    obtain ⟨isr, hset, hlines⟩ := h.settings hd
    rw [htodo, replay_nil] at hset
    have hcas := cascaded_of_settings hset
    obtain ⟨hmaster, hslave⟩ := Pics.acknowledge_settings hcas
    have hisr : s.pics.slave.isr = isr := congrArg (fun t => t.slave.isr) hset
    refine ⟨s.pics.acknowledge.2.slave.isr, ?_, fun i hi => ?_⟩
    · rw [htodo, replay_nil, Pics.settings, hmaster, hslave]
      change Pics.mk s.pics.settings.master { s.pics.settings.slave with isr := _ } = _
      rw [hset]
      rfl
    · rw [PicSystem.lines, mem_lines_append] at hi
      -- a line from before is still being served
      have hold : s.pics.acknowledge.2.slave.isr = s.pics.slave.isr →
          (s.pics.acknowledge.1).line ≠ some (Pics.slaveLine i) →
            s.pics.acknowledge.2.slave.isr.getLsbD i = true := by
        intro hsame hne
        rw [hsame, hisr]
        exact hlines i (hi.resolve_right hne)
      obtain ⟨j, -, -, -, hx, hsame⟩ | ⟨j, -, -, -, -, -, hx, hserved⟩ | ⟨-, hx, hsame⟩ |
        ⟨-, -, -, hx, hsame⟩ := Pics.acknowledge_cases hcas
      · refine hold hsame fun hline => ?_
        rw [hx] at hline
        exact Pics.masterLine_ne j i (Option.some.inj hline)
      · by_cases hij : i = j
        · rw [hserved, hij, BitVec.getLsbD_or, Pic.getLsbD_bit]
          simp
        · rw [hserved, BitVec.getLsbD_or, hisr, hlines i, Bool.true_or]
          refine hi.resolve_right fun hline => ?_
          rw [hx] at hline
          exact hij (Pics.slaveLine_injective (Option.some.inj hline)).symm
      · exact hold hsame (by rw [hx]; exact fun hline => by cases hline)
      · exact hold hsame (by rw [hx]; exact fun hline => by cases hline)

theorem PicInv.step {op : PicOp} (h : PicInv ops s) (hs : PicStep s op t) :
    PicInv (ops ++ [op]) t := by
  unfold PicStep picStep at hs
  cases op with
  | signal n on =>
    obtain rfl := Option.some.inj hs
    exact h.signal n on
  | call c =>
    cases htodo : s.todo with
    | cons e todo => simp [htodo] at hs
    | nil =>
      simp only [htodo] at hs
      obtain rfl := Option.some.inj hs
      cases c with
      | init => exact PicInv.init ops s
      | setmask mask => exact h.setmask htodo mask
  | go =>
    cases htodo : s.todo with
    | nil => simp [htodo] at hs
    | cons e todo =>
      simp only [htodo] at hs
      obtain rfl := Option.some.inj hs
      exact h.go htodo
  | acknowledge =>
    cases htodo : s.todo with
    | cons e todo => simp [htodo] at hs
    | nil =>
      simp only [htodo] at hs
      obtain rfl := Option.some.inj hs
      have hinv := h.acknowledge htodo
      rwa [htodo] at hinv

theorem PicInv.of_run {pics : Pics} (h : Run PicStep { pics := pics } ops s) : PicInv ops s :=
  h.invariant_of_labels (fun _ _ _ _ hinv hs => hinv.step hs) (PicInv.start pics)

/-! ### What is masked -/

theorem mask_programmed (mask : BitVec 16) (isr : BitVec 8) :
    (programmed mask isr).mask = mask := by
  refine BitVec.eq_of_getLsbD_eq fun i hi => ?_
  unfold Pics.mask programmed
  rw [BitVec.getLsbD_append]
  by_cases hlt : i < 8
  · simp [hlt]
  · have hadd : 8 + (i - 8) = i := by omega
    have hlt' : i - 8 < 8 := by omega
    simp [hlt, hlt', hadd]

theorem mask_of_settings {s : Pics} {mask : BitVec 16} {isr : BitVec 8}
    (h : s.settings = programmed mask isr) : s.mask = mask :=
  calc s.mask = s.settings.mask := rfl
    _ = (programmed mask isr).mask := by rw [h]
    _ = mask := mask_programmed _ _

theorem vector_of_settings {s : Pics} {mask : BitVec 16} {isr : BitVec 8}
    (h : s.settings = programmed mask isr) (n : Fin 16) :
    s.vector n = BitVec.ofNat 8 (irqOffset + n) := by
  have hmaster : s.master.icw2 = 32#8 := congrArg (fun t => t.master.icw2) h
  have hslave : s.slave.icw2 = 40#8 := congrArg (fun t => t.slave.icw2) h
  unfold Pics.vector Pic.vector
  rw [hmaster, hslave]
  revert n
  decide

/-- When no call is running, the controllers are as the driver has set them up. -/
theorem PicInv.settings_eq (h : PicInv ops s) (hinit : .call .init ∈ ops) (htodo : s.todo = []) :
    ∃ isr, s.pics.settings = programmed s.effective isr ∧
      ∀ i, Pics.slaveLine i ∈ s.lines → isr.getLsbD i = true := by
  obtain ⟨isr, hset, hlines⟩ := h.settings (h.didinit.mpr hinit)
  rw [htodo, replay_nil] at hset
  exact ⟨isr, hset, hlines⟩

/-- The lines that are not masked. -/
def Pics.enabled (s : Pics) : List (Fin 16) :=
  (List.finRange 16).filter fun n => !s.mask.getLsbD n

theorem announce_eq {s : Pics} {mask : BitVec 16} (h : s.mask = mask) :
    announce mask = [.cprintf "enabled interrupts:" []] ++
      s.enabled.map (fun n => .cprintf " %d" [n.val]) ++ [.cprintf "\n" []] := by
  have hrange : List.range 16 = (List.finRange 16).map Fin.val := by decide
  have hline : ∀ n : Fin 16, (~~~mask).getLsbD n = !mask.getLsbD n := by
    intro n
    simp [n.isLt]
  unfold announce Pics.enabled
  rw [h, hrange, List.filter_map, List.map_map]
  congr 3
  exact List.filter_congr fun n _ => hline n

/-- From power-on, with the controllers in the middle of anything and with devices that ask for
service at any time: as soon as `pic_init` has been called, and no call is running, a line is
masked as `irq_mask_8259A` says and its vector is the one from `IRQ_OFFSET` on, and the lines that
are not masked have been printed. There is one exception, and no other: `pic_init` with all lines
masked leaves all of them open. -/
theorem pic_mask (pics : Pics) (h : Run PicStep { pics := pics } ops s)
    (hinit : .call .init ∈ ops) (htodo : s.todo = []) :
    (∀ n, s.pics.vector n = BitVec.ofNat 8 (irqOffset + n)) ∧
      (s.pics.mask = s.driver.irqMask8259A ↔
        ¬(s.last = some .init ∧ s.driver.irqMask8259A = 0xFFFF#16)) ∧
      (s.pics.mask = s.driver.irqMask8259A →
        s.printed = [.cprintf "enabled interrupts:" []] ++
          s.pics.enabled.map (fun n => .cprintf " %d" [n.val]) ++ [.cprintf "\n" []]) ∧
      (s.pics.mask ≠ s.driver.irqMask8259A → s.pics.mask = 0#16 ∧ s.printed = []) := by
  have hinv := PicInv.of_run h
  obtain ⟨isr, hset, -⟩ := hinv.settings_eq hinit htodo
  have hprinted := hinv.printed (hinv.didinit.mpr hinit)
  rw [htodo, List.flatMap_nil, List.append_nil] at hprinted
  have hmask : s.pics.mask = s.effective := mask_of_settings hset
  refine ⟨vector_of_settings hset, ?_⟩
  unfold PicSystem.effective at hmask
  unfold PicSystem.announced at hprinted
  split_ifs at hmask hprinted with hopen
  · -- all of them are masked in the variable
    have hne : s.pics.mask ≠ s.driver.irqMask8259A := by
      rw [hmask, hopen.2]
      decide
    exact ⟨iff_of_false hne (not_not_intro hopen), fun heq => absurd heq hne,
      fun _ => ⟨hmask, hprinted⟩⟩
  · exact ⟨iff_of_true hmask hopen, fun _ => hprinted.trans (announce_eq hmask),
      fun hne => absurd hmask hne⟩

/-- Controllers of which nothing has been programmed. -/
def picReset : Pic :=
  { irr := 0#8, isr := 0#8, imr := 0#8, icw1 := 0#8, icw2 := 0#8, icw3 := 0#8, icw4 := 0#8
    specialMask := false, readIsr := false, expects := .icw3 }

/-- The first call of `pic_init`, and line 8 asks for service while it is running. -/
def picBoot : List PicOp := [.call .init, .go, .go, .signal 8 true] ++ List.replicate 17 .go

theorem pic_mask_boot : ∃ s, Run PicStep { pics := ⟨picReset, picReset⟩ } picBoot s ∧
    s.driver.irqMask8259A = 0xFFFB#16 ∧ s.pics.mask = s.driver.irqMask8259A := by
  have hfields : (picBoot.foldlM picStep { pics := ⟨picReset, picReset⟩ }).map
      (fun s => (s.todo, s.last, s.driver.irqMask8259A)) =
        some ([], some .init, 0xFFFB#16) := by decide
  cases hfold : picBoot.foldlM picStep { pics := ⟨picReset, picReset⟩ } with
  | none =>
    rw [hfold] at hfields
    cases hfields
  | some s =>
    rw [hfold] at hfields
    obtain ⟨htodo, hrest⟩ := Prod.mk.inj (Option.some.inj hfields)
    obtain ⟨-, hirq⟩ := Prod.mk.inj hrest
    have hrun : Run PicStep { pics := ⟨picReset, picReset⟩ } picBoot s := Run.of_foldlM hfold
    obtain ⟨-, hmask, -⟩ := pic_mask _ hrun (by decide) htodo
    refine ⟨s, hrun, hirq, hmask.mpr fun hc => ?_⟩
    rw [hirq] at hc
    exact absurd hc.2 (by decide)

/-! ### What is taken -/

/-- From the first `pic_init` on, the processor gets a line that asks for service and is not
masked, by its own vector, or the last vector of a controller from which there is nothing to
serve. A line of the slave comes through line 2 of the master, and at most once until `pic_init`
is called again. -/
theorem pic_acknowledge (pics : Pics) (h : Run PicStep { pics := pics } ops s)
    (hinit : .call .init ∈ ops) (hs : PicStep s .acknowledge t) :
    ∃ x, t.taken = s.taken ++ [x] ∧
      ((∃ n : Fin 16, x.line = some n ∧ n.val ≠ irqSlave ∧
          x.vector = some (BitVec.ofNat 8 (irqOffset + n)) ∧
          s.pics.asking.getLsbD n = true ∧ s.effective.getLsbD n = false ∧
          (8 ≤ n.val → s.pics.asking.getLsbD irqSlave = true ∧
            s.effective.getLsbD irqSlave = false ∧ n ∉ s.lines)) ∨
        (x = ⟨some (BitVec.ofNat 8 (irqOffset + 7)), none⟩ ∧
          ∀ n < 8, s.pics.asking.getLsbD n = false ∨ s.effective.getLsbD n = true) ∨
        (x = ⟨some (BitVec.ofNat 8 (irqOffset + 15)), none⟩ ∧ s.pics.slave.request = none ∧
          s.pics.asking.getLsbD irqSlave = true ∧ s.effective.getLsbD irqSlave = false)) := by
  have hinv := PicInv.of_run h
  unfold PicStep picStep at hs
  cases htodo : s.todo with
  | cons e todo => simp [htodo] at hs
  | nil =>
    simp only [htodo] at hs
    obtain rfl := Option.some.inj hs
    obtain ⟨isr, hset, hlines⟩ := hinv.settings_eq hinit htodo
    have hcas := cascaded_of_settings hset
    have hisr : s.pics.slave.isr = isr := congrArg (fun t => t.slave.isr) hset
    have hmaster : ∀ i : Fin 8, s.pics.master.vector i = BitVec.ofNat 8 (irqOffset + i) := fun i =>
      (Pics.vector_masterLine s.pics i).symm.trans (vector_of_settings hset _)
    have hslave : ∀ i : Fin 8, s.pics.slave.vector i =
        BitVec.ofNat 8 (irqOffset + Pics.slaveLine i) := fun i =>
      (Pics.vector_slaveLine s.pics i).symm.trans (vector_of_settings hset _)
    rw [← mask_of_settings hset]
    refine ⟨s.pics.acknowledge.1, rfl, ?_⟩
    obtain ⟨i, hne, hirr, himr, hx, -⟩ | ⟨i, hcirr, hcimr, hirr, himr, hfree, hx, -⟩ |
      ⟨hnone, hx, -⟩ | ⟨hreq, hcirr, hcimr, hx, -⟩ := Pics.acknowledge_cases hcas
    · -- a line of the master
      refine .inl ⟨Pics.masterLine i, by rw [hx], fun h2 => hne (Fin.ext h2), ?_, ?_, ?_, ?_⟩
      · rw [hx, hmaster]
        rfl
      · exact (Pics.getLsbD_masterLine _ _ i).trans hirr
      · exact (Pics.getLsbD_masterLine _ _ i).trans himr
      · exact fun h8 => absurd i.isLt (Nat.not_lt.mpr h8)
    · -- a line of the slave
      refine .inl ⟨Pics.slaveLine i, by rw [hx], fun h2 => ?_, ?_, ?_, ?_, fun _ => ⟨?_, ?_, ?_⟩⟩
      · dsimp only [Pics.slaveLine, irqSlave] at h2
        omega
      · rw [hx, hslave]
      · exact (Pics.getLsbD_slaveLine _ _ i).trans hirr
      · exact (Pics.getLsbD_slaveLine _ _ i).trans himr
      · exact (Pics.getLsbD_masterLine _ _ 2).trans hcirr
      · exact (Pics.getLsbD_masterLine _ _ 2).trans hcimr
      · intro hmem
        rw [hisr, hlines i hmem] at hfree
        cases hfree
    · -- nothing at the master
      refine .inr (.inl ⟨by rw [hx, hmaster]; rfl, fun n hn => ?_⟩)
      exact (hnone ⟨n, hn⟩).imp ((Pics.getLsbD_masterLine _ _ ⟨n, hn⟩).trans ·)
        ((Pics.getLsbD_masterLine _ _ ⟨n, hn⟩).trans ·)
    · -- nothing at the slave
      refine .inr (.inr ⟨by rw [hx, hslave]; rfl, hreq, ?_, ?_⟩)
      · exact (Pics.getLsbD_masterLine _ _ 2).trans hcirr
      · exact (Pics.getLsbD_masterLine _ _ 2).trans hcimr

/-- Line 8 is opened too, and asks for service. -/
def picClock : List PicOp :=
  picBoot ++ [.call (.setmask 0xFEFB#16)] ++ List.replicate 6 .go ++
    [.signal 8 true, .signal 2 true]

theorem pic_acknowledge_clock : ∃ s t, Run PicStep { pics := ⟨picReset, picReset⟩ } picClock s ∧
    PicStep s .acknowledge t ∧ t.taken = [⟨some 40#8, some 8⟩] ∧
    s.pics.asking.getLsbD 8 = true ∧ s.effective.getLsbD 8 = false := by
  have hfields : (picClock.foldlM picStep { pics := ⟨picReset, picReset⟩ }).bind
      (fun s => (picStep s .acknowledge).map fun t => (s.taken, t.taken)) =
        some ([], [⟨some 40#8, some 8⟩]) := by decide
  obtain ⟨s, hfold, hack⟩ := Option.bind_eq_some_iff.mp hfields
  obtain ⟨t, hstep, htaken⟩ := Option.map_eq_some_iff.mp hack
  obtain ⟨hs, ht⟩ := Prod.mk.inj htaken
  have hrun : Run PicStep { pics := ⟨picReset, picReset⟩ } picClock s := Run.of_foldlM hfold
  refine ⟨s, t, hrun, hstep, ht, ?_⟩
  obtain ⟨x, hx, hcases⟩ := pic_acknowledge _ hrun (by decide) hstep
  rw [ht, hs, List.nil_append] at hx
  obtain rfl := List.singleton_inj.mp hx
  obtain ⟨n, hn, -, -, hask, hmask, -⟩ | ⟨hnone, -⟩ | ⟨hnone, -⟩ := hcases
  · obtain rfl := Option.some.inj hn
    exact ⟨hask, hmask⟩
  · cases hnone
  · cases hnone

end Jos
