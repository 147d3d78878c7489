import Mathlib.Data.BitVec
import Mathlib.Data.Fin.Basic
import Mathlib.Data.List.FinRange

/-!
# 8259A interrupt controllers

An interrupt controller has eight lines. It remembers which of them ask for service (`irr`) and
which are being served (`isr`), and lets those through that are not masked (`imr`). Its command
port takes the first of the initialization words and the operation words; the data port takes the
other initialization words, in their order, and the mask at any other time. What a program does
not switch on is left out: rotating priorities, polling, level-triggered lines and the special
fully nested mode.

Two of them are cascaded: the second one is connected to a line of the first one, and answers when
the first one says so by the number of this line. `Pics.acknowledge` is what the processor does
when it takes an interrupt.

* Writes to the ports and requests of devices do not disturb each other: what is programmed
  (`Pic.settings`) depends on the writes only.
* `Pics.acknowledge_cases` tells what a processor can get from two controllers that are cascaded.
-/

namespace Jos

/-- What the next byte at the data port is. -/
inductive PicExpects where
  | mask
  | icw2
  | icw3
  | icw4
deriving DecidableEq

/-- One controller: its registers, and what comes next at its data port. -/
structure Pic where
  irr : BitVec 8
  isr : BitVec 8
  imr : BitVec 8
  icw1 : BitVec 8
  icw2 : BitVec 8
  icw3 : BitVec 8
  icw4 : BitVec 8
  specialMask : Bool
  readIsr : Bool
  expects : PicExpects
deriving DecidableEq

/-- The lowest bit that is set. -/
def lowestSet (b : BitVec 8) : Option (Fin 8) :=
  (List.finRange 8).find? fun i => b.getLsbD i

theorem lowestSet_eq_some {b : BitVec 8} {i : Fin 8} (h : lowestSet b = some i) :
    b.getLsbD i = true ∧ ∀ j < i, b.getLsbD j = false := by
  obtain ⟨hi, k, hk, rfl, hlt⟩ := List.find?_eq_some_iff_getElem.mp h
  refine ⟨hi, fun j hj => ?_⟩
  have hjk : j.val < k := by simpa [Fin.lt_def] using hj
  simpa using hlt j.val hjk

theorem lowestSet_eq_none {b : BitVec 8} (h : lowestSet b = none) (i : Fin 8) :
    b.getLsbD i = false := by
  have hi := List.find?_eq_none.mp h i (List.mem_finRange i)
  simpa using hi

namespace Pic

/-- The bit of a line. -/
def bit (i : Fin 8) : BitVec 8 := 1#8 <<< i.val

theorem getLsbD_bit (i j : Fin 8) : (bit i).getLsbD j = decide (i = j) := by
  revert i j
  decide

/-- `ICW1` says that there is an `ICW4`. -/
def needsIcw4 (p : Pic) : Bool := p.icw1.getLsbD 0

/-- `ICW1` says that there is no other controller. -/
def single (p : Pic) : Bool := p.icw1.getLsbD 1

/-- `ICW4` says that a service ends as soon as it is acknowledged. -/
def autoEoi (p : Pic) : Bool := p.icw4.getLsbD 1

/-- `ICW4` says that the processor reads a vector. -/
def x86Mode (p : Pic) : Bool := p.icw4.getLsbD 0

/-- A write to the command port. -/
def command (v : BitVec 8) (p : Pic) : Pic :=
  if v.getLsbD 4 then
    -- ICW1
    { p with
      irr := 0#8, isr := 0#8, imr := 0#8, icw1 := v, icw4 := 0#8
      specialMask := false, readIsr := false, expects := .icw2 }
  else if v.getLsbD 3 then
    -- OCW3
    { p with
      specialMask := if v.getLsbD 6 then v.getLsbD 5 else p.specialMask
      readIsr := if v.getLsbD 1 then v.getLsbD 0 else p.readIsr }
  else if v.getLsbD 5 then
    -- OCW2, the end of a service: of the line it names, or of the first one
    let done := if v.getLsbD 6 then some (Fin.ofNat 8 v.toNat) else lowestSet p.isr
    { p with isr := done.elim p.isr fun i => p.isr &&& ~~~bit i }
  else p

/-- A write to the data port. -/
def data (v : BitVec 8) (p : Pic) : Pic :=
  match p.expects with
  | .mask => { p with imr := v }
  | .icw2 => { p with
      icw2 := v
      expects := if p.single then (if p.needsIcw4 then .icw4 else .mask) else .icw3 }
  | .icw3 => { p with icw3 := v, expects := if p.needsIcw4 then .icw4 else .mask }
  | .icw4 => { p with icw4 := v, expects := .mask }

/-- A device asks for service. -/
def raise (i : Fin 8) (p : Pic) : Pic := { p with irr := p.irr ||| bit i }

/-- It does not any more. -/
def lower (i : Fin 8) (p : Pic) : Pic := { p with irr := p.irr &&& ~~~bit i }

/-- The lines that keep the ones behind them from being served. -/
def blocking (p : Pic) : BitVec 8 := if p.specialMask then p.isr &&& ~~~p.imr else p.isr

/-- The line that the controller wants to be served. -/
def request (p : Pic) : Option (Fin 8) :=
  match lowestSet (p.irr &&& ~~~p.imr) with
  | none => none
  | some i =>
    match lowestSet p.blocking with
    | none => some i
    | some j => if i < j then some i else none

/-- Line `i` is acknowledged. -/
def serve (i : Fin 8) (p : Pic) : Pic :=
  { p with
    irr := p.irr &&& ~~~bit i
    isr := if p.autoEoi then p.isr else p.isr ||| bit i }

/-- The vector of line `i`. -/
def vector (p : Pic) (i : Fin 8) : BitVec 8 := (p.icw2 &&& 0xF8#8) ||| BitVec.ofNat 8 i.val

/-- What the processor reads for line `i`. -/
def answer (p : Pic) (i : Fin 8) : Option (BitVec 8) :=
  if p.x86Mode then some (p.vector i) else none

/-! ### What is programmed -/

/-- The controller without the requests of the devices. -/
def settings (p : Pic) : Pic := { p with irr := 0#8 }

theorem command_settings (v : BitVec 8) (p : Pic) :
    (p.command v).settings = (p.settings.command v).settings := by
  unfold command settings
  split_ifs <;> rfl

theorem data_settings (v : BitVec 8) (p : Pic) :
    (p.data v).settings = (p.settings.data v).settings := by
  unfold data
  cases p with
  | mk irr isr imr icw1 icw2 icw3 icw4 specialMask readIsr expects => cases expects <;> rfl

/-- After the four initialization words nothing is left of what the controller was. -/
theorem command_data {v : BitVec 8} (h4 : v.getLsbD 4 = true) (h1 : v.getLsbD 1 = false)
    (h0 : v.getLsbD 0 = true) (v2 v3 v4 : BitVec 8) (p : Pic) :
    (((p.command v).data v2).data v3).data v4 =
      { irr := 0#8, isr := 0#8, imr := 0#8, icw1 := v, icw2 := v2, icw3 := v3, icw4 := v4
        specialMask := false, readIsr := false, expects := .mask } := by
  simp [command, data, single, needsIcw4, h4, h1, h0, -BitVec.getLsbD_eq_getElem]

@[simp] theorem raise_settings (i : Fin 8) (p : Pic) : (p.raise i).settings = p.settings := rfl

@[simp] theorem lower_settings (i : Fin 8) (p : Pic) : (p.lower i).settings = p.settings := rfl

/-! ### Requests -/

theorem blocking_getLsbD {p : Pic} {i : Fin 8} (h : p.blocking.getLsbD i = false)
    (hi : p.imr.getLsbD i = false) : p.isr.getLsbD i = false := by
  unfold blocking at h
  split_ifs at h with hs
  · rw [BitVec.getLsbD_and, BitVec.getLsbD_not, hi] at h
    simpa [-BitVec.getLsbD_eq_getElem] using h
  · exact h

/-- A line that is to be served asks for it, is not masked, and is not being served already. -/
theorem request_spec {p : Pic} {i : Fin 8} (h : p.request = some i) :
    p.irr.getLsbD i = true ∧ p.imr.getLsbD i = false ∧ p.isr.getLsbD i = false := by
  unfold request at h
  cases hlow : lowestSet (p.irr &&& ~~~p.imr) with
  | none => simp [hlow] at h
  | some k =>
    have hset := (lowestSet_eq_some hlow).1
    simp only [BitVec.getLsbD_and, BitVec.getLsbD_not, Bool.and_eq_true, Bool.not_eq_true',
      k.isLt, decide_true, true_and] at hset
    cases hblock : lowestSet p.blocking with
    | none =>
      simp only [hlow, hblock, Option.some.injEq] at h
      subst h
      exact ⟨hset.1, hset.2, blocking_getLsbD (lowestSet_eq_none hblock k) hset.2⟩
    | some j =>
      simp only [hlow, hblock] at h
      split_ifs at h with hlt
      obtain rfl := Option.some.inj h
      exact ⟨hset.1, hset.2,
        blocking_getLsbD ((lowestSet_eq_some hblock).2 k hlt) hset.2⟩

/-- A controller that wants nothing to be served has no line that asks for it and is not
masked, as long as none is being served. -/
theorem request_eq_none {p : Pic} (h : p.request = none) (hisr : p.isr = 0#8) (i : Fin 8) :
    p.irr.getLsbD i = false ∨ p.imr.getLsbD i = true := by
  have hblock : p.blocking = 0#8 := by
    unfold blocking
    split_ifs <;> simp [hisr]
  have hnone : lowestSet (0#8) = none := by decide
  unfold request at h
  cases hlow : lowestSet (p.irr &&& ~~~p.imr) with
  | none =>
    have hi := lowestSet_eq_none hlow i
    rw [BitVec.getLsbD_and, BitVec.getLsbD_not, Bool.and_eq_false_iff] at hi
    exact hi.imp_right fun hm => by simpa [-BitVec.getLsbD_eq_getElem] using hm
  | some k => simp [hlow, hblock, hnone] at h

theorem answer_of_x86Mode {p : Pic} (h : p.x86Mode = true) (i : Fin 8) :
    p.answer i = some (p.vector i) := if_pos h

end Pic

/-! ### Two controllers -/

/-- Two controllers, of which the processor is connected to the first one. -/
structure Pics where
  master : Pic
  slave : Pic
deriving DecidableEq

/-- What the processor gets: the vector that it reads, if there is one, and the line that is
served, if there is one. -/
structure Taken where
  vector : Option (BitVec 8)
  line : Option (Fin 16)
deriving DecidableEq

namespace Pics

/-- A line of the first controller. -/
def masterLine (i : Fin 8) : Fin 16 := ⟨i.val, by omega⟩

/-- A line of the second one. -/
def slaveLine (i : Fin 8) : Fin 16 := ⟨8 + i.val, by omega⟩

/-- The processor takes an interrupt. A controller that does not want anything any more gives
the vector of its last line. -/
def acknowledge (s : Pics) : Taken × Pics :=
  match s.master.request with
  | none => (⟨s.master.answer 7, none⟩, s)
  | some i =>
    let t := { s with master := s.master.serve i }
    if s.master.icw3.getLsbD i then
      -- the number of the line tells the other controller to answer
      if s.slave.icw3 &&& 7#8 = BitVec.ofNat 8 i.val then
        match s.slave.request with
        | none => (⟨s.slave.answer 7, none⟩, t)
        | some j =>
          (⟨s.slave.answer j, some (slaveLine j)⟩, { t with slave := s.slave.serve j })
      else (⟨none, none⟩, t)
    else (⟨s.master.answer i, some (masterLine i)⟩, t)

/-- What is masked, the lines of the second controller in the upper byte. -/
def mask (s : Pics) : BitVec 16 := s.slave.imr ++ s.master.imr

/-- The lines that ask for service. -/
def asking (s : Pics) : BitVec 16 := s.slave.irr ++ s.master.irr

/-- The vector of line `n`. -/
def vector (s : Pics) (n : Fin 16) : BitVec 8 :=
  if n.val < 8 then s.master.vector (Fin.ofNat 8 n.val) else s.slave.vector (Fin.ofNat 8 n.val)

/-- A device asks for service at line `n`, or does not any more. -/
def signal (n : Fin 16) (on : Bool) (s : Pics) : Pics :=
  let f := if on then Pic.raise else Pic.lower
  if n.val < 8 then { s with master := f (Fin.ofNat 8 n.val) s.master }
  else { s with slave := f (Fin.ofNat 8 n.val) s.slave }

/-- The controllers without the requests of the devices. -/
def settings (s : Pics) : Pics := ⟨s.master.settings, s.slave.settings⟩

@[simp] theorem signal_settings (n : Fin 16) (on : Bool) (s : Pics) :
    (s.signal n on).settings = s.settings := by
  unfold signal
  cases on <;> dsimp only <;> split_ifs <;> rfl

/-- The second controller is connected to line `c` of the first one, whose services end by
themselves. -/
structure Cascaded (c : Fin 8) (s : Pics) : Prop where
  master_icw3 : s.master.icw3 = Pic.bit c
  slave_icw3 : s.slave.icw3 = BitVec.ofNat 8 c.val
  master_isr : s.master.isr = 0#8
  master_autoEoi : s.master.autoEoi = true
  slave_autoEoi : s.slave.autoEoi = false
  master_x86Mode : s.master.x86Mode = true
  slave_x86Mode : s.slave.x86Mode = true

variable {c : Fin 8} {s : Pics}

theorem getLsbD_masterLine (hi lo : BitVec 8) (i : Fin 8) :
    (hi ++ lo).getLsbD (masterLine i) = lo.getLsbD i := by
  have hlt : (masterLine i).val < 8 := i.isLt
  rw [BitVec.getLsbD_append, if_pos hlt]
  rfl

theorem getLsbD_slaveLine (hi lo : BitVec 8) (i : Fin 8) :
    (hi ++ lo).getLsbD (slaveLine i) = hi.getLsbD i := by
  rw [BitVec.getLsbD_append, if_neg (by simp [slaveLine])]
  simp [slaveLine, -BitVec.getLsbD_eq_getElem]

theorem masterLine_ne (i j : Fin 8) : masterLine i ≠ slaveLine j := by
  intro h
  have hval := congrArg Fin.val h
  dsimp only [masterLine, slaveLine] at hval
  omega

theorem slaveLine_injective : Function.Injective slaveLine := by
  intro i j h
  have hval := congrArg Fin.val h
  dsimp only [slaveLine] at hval
  exact Fin.ext (by omega)

theorem vector_masterLine (s : Pics) (i : Fin 8) :
    s.vector (masterLine i) = s.master.vector i := by
  have hi : Fin.ofNat 8 (masterLine i).val = i := by
    revert i
    decide
  have hlt : (masterLine i).val < 8 := i.isLt
  rw [vector, if_pos hlt, hi]

theorem vector_slaveLine (s : Pics) (i : Fin 8) :
    s.vector (slaveLine i) = s.slave.vector i := by
  have hi : Fin.ofNat 8 (slaveLine i).val = i := by
    revert i
    decide
  have hge : ¬(slaveLine i).val < 8 := by simp [slaveLine]
  rw [vector, if_neg hge, hi]

/-- Taking an interrupt changes nothing that is programmed, but for the lines of the second
controller that are being served. -/
theorem acknowledge_settings (h : Cascaded c s) :
    (acknowledge s).2.master.settings = s.master.settings ∧
      (acknowledge s).2.slave.settings =
        { s.slave.settings with isr := (acknowledge s).2.slave.isr } := by
  have hserve : ∀ i, (s.master.serve i).settings = s.master.settings := fun i => by
    simp [Pic.settings, Pic.serve, h.master_autoEoi]
  unfold acknowledge
  cases s.master.request with
  | none => exact ⟨rfl, rfl⟩
  | some i =>
    dsimp only
    split_ifs
    · cases s.slave.request with
      | none => exact ⟨hserve i, rfl⟩
      | some j => exact ⟨hserve i, rfl⟩
    · exact ⟨hserve i, rfl⟩
    · exact ⟨hserve i, rfl⟩

/-- What a processor can get. A line that is served asks for service and is not masked; the
vector is its own. When no line is served, the vector is the last one of a controller from which
there is nothing to serve. -/
theorem acknowledge_cases (h : Cascaded c s) :
    (∃ i : Fin 8, i ≠ c ∧ s.master.irr.getLsbD i = true ∧ s.master.imr.getLsbD i = false ∧
        (acknowledge s).1 = ⟨some (s.master.vector i), some (masterLine i)⟩ ∧
        (acknowledge s).2.slave.isr = s.slave.isr) ∨
      (∃ i : Fin 8, s.master.irr.getLsbD c = true ∧ s.master.imr.getLsbD c = false ∧
        s.slave.irr.getLsbD i = true ∧ s.slave.imr.getLsbD i = false ∧
        s.slave.isr.getLsbD i = false ∧
        (acknowledge s).1 = ⟨some (s.slave.vector i), some (slaveLine i)⟩ ∧
        (acknowledge s).2.slave.isr = s.slave.isr ||| Pic.bit i) ∨
      ((∀ i : Fin 8, s.master.irr.getLsbD i = false ∨ s.master.imr.getLsbD i = true) ∧
        (acknowledge s).1 = ⟨some (s.master.vector 7), none⟩ ∧
        (acknowledge s).2.slave.isr = s.slave.isr) ∨
      (s.slave.request = none ∧ s.master.irr.getLsbD c = true ∧
        s.master.imr.getLsbD c = false ∧
        (acknowledge s).1 = ⟨some (s.slave.vector 7), none⟩ ∧
        (acknowledge s).2.slave.isr = s.slave.isr) := by
  have hanswer := Pic.answer_of_x86Mode h.master_x86Mode
  unfold acknowledge
  simp only [hanswer, Pic.answer_of_x86Mode h.slave_x86Mode]
  cases hreq : s.master.request with
  | none => exact .inr (.inr (.inl ⟨Pic.request_eq_none hreq h.master_isr, rfl, rfl⟩))
  | some i =>
    have hspec := Pic.request_spec hreq
    by_cases hic : i = c
    · subst hic
      have hline : s.master.icw3.getLsbD i = true := by
        rw [h.master_icw3, Pic.getLsbD_bit]
        exact decide_eq_true rfl
      have hid : s.slave.icw3 &&& 7#8 = BitVec.ofNat 8 i.val := by
        have hlow : ∀ k : Fin 8, BitVec.ofNat 8 k.val &&& 7#8 = BitVec.ofNat 8 k.val := by decide
        rw [h.slave_icw3, hlow]
      simp only [hline, hid, if_true]
      cases hslave : s.slave.request with
      | none => exact .inr (.inr (.inr ⟨rfl, hspec.1, hspec.2.1, rfl, rfl⟩))
      | some j =>
        obtain ⟨hirr, himr, hisr⟩ := Pic.request_spec hslave
        refine .inr (.inl ⟨j, hspec.1, hspec.2.1, hirr, himr, hisr, rfl, ?_⟩)
        simp [Pic.serve, h.slave_autoEoi]
    · have hline : ¬s.master.icw3.getLsbD i = true := by
        rw [h.master_icw3, Pic.getLsbD_bit]
        simpa using fun hci => hic hci.symm
      dsimp only
      rw [if_neg hline]
      exact .inl ⟨i, hic, hspec.1, hspec.2.1, rfl, rfl⟩

end Pics

end Jos
