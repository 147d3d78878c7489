import Jos.Inc.Descriptors
import Jos.Kern.Mpconfig
import Jos.Kern.Trapentry

/-!
# The tables of the processor

`gdt` and `env_init_percpu` of `kern/env.c`, `idt`, `trap_init` and `trap_init_percpu` of
`kern/trap.c`, and the processor that reads these tables when something happens in the middle of
a program. The tables are C objects apart from the rest of memory; the processor sees the bytes of
their elements. Only 32-bit interrupt and trap gates are gates here; `trap_init` makes no others.
-/

namespace Jos

/-- `KSTACKTOP`. -/
def kstacktop : Word := kernbase
/-- `GD_TSS0`. -/
def gdTSS0 : BitVec 16 := 0x28#16
/-- `sizeof(struct Taskstate)`. -/
def sizeofTaskstate : ℕ := 104

/-- `struct Taskstate`, as far as the processor reads it on the way into the kernel. -/
structure Taskstate where
  tsEsp0 : Word := 0#32
  tsSs0 : BitVec 16 := 0#16
  tsEsp1 : Word := 0#32
  tsSs1 : BitVec 16 := 0#16
  tsEsp2 : Word := 0#32
  tsSs2 : BitVec 16 := 0#16
  tsIomb : BitVec 16 := 0#16

/-- The objects `gdt`, `idt` and `ts`, and the registers of one processor that point to them. -/
structure Tables where
  gdt : ℕ → Segdesc
  idt : ℕ → Gatedesc
  ts : Taskstate
  /-- `&ts`. -/
  tsAddr : Word
  /-- The limit in `GDTR`; none, if `gdt_pd` has not been loaded. -/
  gdtLimit : Option ℕ
  /-- The limit in `IDTR`; none, if `idt_pd` has not been loaded. -/
  idtLimit : Option ℕ
  /-- What `TR` says about the task segment. -/
  tr : Option SegView

/-! ### `kern/env.c` -/

/-- `gdt`, as it is in the image of the kernel. -/
def gdtImage : ℕ → Segdesc
  | 1 => seg (staX ||| staR) 0x0#32 0xFFFFFFFF#32 0
  | 2 => seg staW 0x0#32 0xFFFFFFFF#32 0
  | 3 => seg (staX ||| staR) 0x0#32 0xFFFFFFFF#32 3
  | 4 => seg staW 0x0#32 0xFFFFFFFF#32 3
  | _ => segNull

/-- `env_init_percpu()`, of which only `lgdt(&gdt_pd)` is about the tables. -/
def envInitPercpu (t : Tables) : Tables := { t with gdtLimit := some (8 * (ncpuMax + 5) - 1) }

/-! ### `kern/trap.c` -/

/-- An element of `idt` that has not been set. -/
def gateNull : Gatedesc := ⟨0, 0, 0, 0, 0, 0, 0, 0, 0⟩

/-- `SETGATE(idt[n], 0, GD_KT, off, dpl)`. -/
def Tables.setgate (t : Tables) (n : ℕ) (off : Word) (dpl : BitVec 2) : Tables :=
  { t with idt := Function.update t.idt n (Jos.setgate false gdKT off dpl) }

/-- `ltr(sel)`: the processor wants a task segment that is not in use, and marks it. -/
def ltr (sel : BitVec 16) (t : Tables) : Option Tables :=
  let i := (sel >>> 3).toNat
  let d := segView (t.gdt i).bits
  if t.gdtLimit.any (8 * i + 7 ≤ ·) ∧ d.system ∧ d.type = stsT32A ∧ d.present then
    some { t with
      tr := some d
      gdt := Function.update t.gdt i { t.gdt i with sdType := stsT32B } }
  else none

/-- `trap_init_percpu()`. -/
def trapInitPercpu (t : Tables) : Option Tables :=
  let t := { t with
    ts := { t.ts with
      tsEsp0 := kstacktop, tsSs0 := gdKD, tsIomb := BitVec.ofNat 16 sizeofTaskstate } }
  let i := (gdTSS0 >>> 3).toNat
  let d := seg16 stsT32A t.tsAddr (BitVec.ofNat 32 sizeofTaskstate - 1#32) 0
  let t := { t with gdt := Function.update t.gdt i { d with sdS := 0 } }
  (ltr gdTSS0 t).map fun t => { t with idtLimit := some (8 * 256 - 1) }

/-- The gates that `trap_init` sets; `entry` is where the entry points are. -/
def setGates (entry : Handler → Word) (t : Tables) : Tables :=
  let t := t.setgate 0 (entry .handler0) 0
  let t := t.setgate 1 (entry .handler1) 0
  let t := t.setgate 2 (entry .handler2) 0
  -- T_BRKPT
  let t := t.setgate 3 (entry .handler3) 3
  let t := t.setgate 4 (entry .handler4) 0
  let t := t.setgate 5 (entry .handler5) 0
  let t := t.setgate 6 (entry .handler6) 0
  let t := t.setgate 7 (entry .handler7) 0
  let t := t.setgate 8 (entry .handler8) 0
  let t := t.setgate 10 (entry .handler10) 0
  let t := t.setgate 11 (entry .handler11) 0
  let t := t.setgate 12 (entry .handler12) 0
  let t := t.setgate 13 (entry .handler13) 0
  let t := t.setgate 14 (entry .handler14) 0
  let t := t.setgate 16 (entry .handler16) 0
  -- T_SYSCALL
  t.setgate 48 (entry .handler48) 3

/-- `trap_init()`. -/
def trapInit (entry : Handler → Word) (t : Tables) : Option Tables :=
  let t := setGates entry t
  -- Per-CPU setup
  trapInitPercpu t

/-- The tables in the image of the kernel, and a processor that has loaded none of them. -/
def tablesImage (tsAddr : Word) : Tables where
  gdt := gdtImage
  idt := fun _ => gateNull
  ts := {}
  tsAddr := tsAddr
  gdtLimit := none
  idtLimit := none
  tr := none

/-- The tables, and the registers of a processor that has set itself up. -/
inductive SetUp (entry : Handler → Word) (tsAddr : Word) : Tables → Prop
  /-- The boot processor. -/
  | bsp {t : Tables} : trapInit entry (envInitPercpu (tablesImage tsAddr)) = some t →
      SetUp entry tsAddr t
  /-- Another one, in `mp_main`. -/
  | ap {t t' : Tables} : SetUp entry tsAddr t →
      trapInitPercpu (envInitPercpu { t with gdtLimit := none, idtLimit := none, tr := none }) =
        some t' → SetUp entry tsAddr t'

/-! ### The processor -/

/-- What interrupts a program. -/
inductive Event where
  /-- The instruction `int n`. -/
  | soft (n : BitVec 8)
  /-- An exception, with the error code for those that have one. -/
  | exception (n : BitVec 8) (err : Word)
  /-- An interrupt from outside. -/
  | external (n : BitVec 8)
deriving DecidableEq

namespace Event

/-- The number of the gate. -/
def vector : Event → BitVec 8
  | soft n => n
  | exception n _ => n
  | external n => n

/-- The program asks for it itself. -/
def isSoft : Event → Bool
  | soft _ => true
  | _ => false

/-- The bit `EXT` of an error code: the program has not asked for it. -/
def ext (ev : Event) : Word := if ev.isSoft then 0#32 else 1#32

/-- The error code that names the gate. -/
def gateError (ev : Event) : Word := ev.vector.setWidth 32 * 8#32 + 2#32 + ev.ext

/-- The processor has the vectors below 32 for itself. -/
def Proper : Event → Prop
  | soft _ => True
  | exception n _ => n.toNat < 32
  | external n => 32 ≤ n.toNat

/-- What is pushed as the error code. -/
def error? : Event → Option Word
  | exception n err => if PushesError n.toNat then some err else none
  | _ => none

end Event

/-- An exception. -/
structure Fault where
  vector : BitVec 8
  err : Word
deriving DecidableEq

/-- The stack for a privilege level in the task segment. -/
def Taskstate.stack (ts : Taskstate) (level : BitVec 2) : Word × BitVec 16 :=
  if level = 0 then (ts.tsEsp0, ts.tsSs0)
  else if level = 1 then (ts.tsEsp1, ts.tsSs1)
  else (ts.tsEsp2, ts.tsSs2)

/-- The segment that a selector stands for; none, if it stands for none in `gdt`. -/
def Tables.segment (t : Tables) (sel : BitVec 16) : Option SegView :=
  if sel.getLsbD 2 = false ∧ t.gdtLimit.any (8 * (sel >>> 3).toNat + 7 ≤ ·) then
    some (segView (t.gdt (sel >>> 3).toNat).bits)
  else none

/-- The stack of an inner privilege level: its address, and its selector. -/
def Tables.innerStack (t : Tables) (level : BitVec 2) (ext : Word) :
    Except Fault (Word × BitVec 16) :=
  match t.tr with
  | none => .error ⟨10#8, ext⟩
  | some tr =>
    if tr.limit.toNat < 8 * level.toNat + 9 ∨ tr.base ≠ t.tsAddr then .error ⟨10#8, ext⟩
    else
      let (esp, ss) := t.ts.stack level
      let ssErr := (ss &&& ~~~3#16).setWidth 32 + ext
      if ss &&& ~~~3#16 = 0#16 then .error ⟨10#8, ext⟩
      else
        match t.segment ss with
        | none => .error ⟨10#8, ssErr⟩
        | some k =>
          -- a data segment of this level that can be written
          if ss.setWidth 2 ≠ level ∨ k.dpl ≠ level ∨ k.system ∨
              k.type &&& (staX ||| staW) ≠ staW then
            .error ⟨10#8, ssErr⟩
          else if !k.present then .error ⟨12#8, ssErr⟩
          else .ok (k.base + esp, ss)

/-- On the stack of `k`, the processor saves where the program `s` was, and goes on at `cs` and
`eip` with these flags cleared. -/
def Event.enter (ev : Event) (pad : Padding) (s : Machine) (eip : Word) (cs : BitVec 16)
    (flags : Word) (k : Machine) : Machine :=
  let k := k.push s.eflags
  let k := k.push (pad.cs ++ s.cs)
  let k := k.push s.eip
  let k := { k with eip := eip, cs := cs, eflags := s.eflags &&& ~~~flags }
  ev.error?.elim k fun err => k.push err

/-- The processor goes through a gate, or finds that it cannot. -/
def deliver (t : Tables) (pad : Padding) (ev : Event) (s : Machine) : Except Fault Machine :=
  let cpl : BitVec 2 := s.cs.setWidth 2
  if !t.idtLimit.any (8 * ev.vector.toNat + 7 ≤ ·) then .error ⟨13#8, ev.gateError⟩
  else
    let g := gateView (t.idt ev.vector.toNat).bits
    if !g.system || !(g.type == stsIG32 || g.type == stsTG32) then .error ⟨13#8, ev.gateError⟩
    else if ev.isSoft && g.dpl < cpl then .error ⟨13#8, ev.gateError⟩
    else if !g.present then .error ⟨11#8, ev.gateError⟩
    else
      let selErr := (g.sel &&& ~~~3#16).setWidth 32 + ev.ext
      if g.sel &&& ~~~3#16 = 0#16 then .error ⟨13#8, ev.ext⟩
      else
        match t.segment g.sel with
        | none => .error ⟨13#8, selErr⟩
        | some c =>
          let conforming := c.type.getLsbD 2
          if c.system || !c.type.getLsbD 3 || cpl < c.dpl then .error ⟨13#8, selErr⟩
          else if !c.present then .error ⟨11#8, selErr⟩
          else if c.limit < g.offset then .error ⟨13#8, ev.ext⟩
          else
            let flags := if g.type = stsIG32 then gateMask else gateMask &&& ~~~0x200#32
            let level := if conforming then cpl else c.dpl
            let cs := (g.sel &&& ~~~3#16) ||| level.setWidth 16
            let enter := ev.enter pad s (c.base + g.offset) cs flags
            if level = cpl then .ok (enter s)
            else
              (t.innerStack level ev.ext).map fun (esp, ss) =>
                enter (({ s with esp := esp, ss := ss }.push (pad.ss ++ s.ss)).push s.esp)

/-- The exceptions after which another one of them is a double fault. -/
def contributory (n : BitVec 8) : Bool :=
  n == 0#8 || n == 10#8 || n == 11#8 || n == 12#8 || n == 13#8 || n == 14#8

/-- The processor takes an event; none, if it shuts down. -/
def takeEvent (t : Tables) (pad : Padding) (ev : Event) (s : Machine) : Option Machine :=
  let doubleFault := (deliver t pad (.exception 8#8 0#32) s).toOption
  match deliver t pad ev s with
  | .ok s => some s
  | .error f =>
    let again :=
      match deliver t pad (.exception f.vector f.err) s with
      | .ok s => some s
      | .error _ => doubleFault
    match ev with
    | .exception n _ =>
      if n = 8#8 then none else if contributory n then doubleFault else again
    | _ => again

end Jos
