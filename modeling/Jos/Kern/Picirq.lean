import Jos.Inc.Mmu
import Jos.Library.Pic

/-!
# The interrupt controllers

`pic_init` and `irq_setmask_8259A` of `kern/picirq.c`. What a call does outside of its two
variables is a list of events, the writes to the ports and what it prints. They are taken one at
a time, since devices ask for service while a call is running. The kernel runs with interrupts
disabled, so the processor takes them between the calls only.
-/

namespace Jos

/-- `IO_PIC1`. -/
def ioPic1 : Word := 0x20#32
/-- `IO_PIC2`. -/
def ioPic2 : Word := 0xA0#32
/-- `IRQ_SLAVE`. -/
def irqSlave : ℕ := 2
/-- `IRQ_OFFSET`. -/
def irqOffset : ℕ := 32

/-- What a call does. -/
inductive PicEvent where
  /-- `outb(port, data)`. -/
  | outb (port : Word) (data : BitVec 8)
  /-- `cprintf(fmt, args)`. -/
  | cprintf (fmt : String) (args : List ℕ)
deriving DecidableEq

/-- `irq_mask_8259A` and `didinit`. -/
structure Picirq where
  irqMask8259A : BitVec 16 := 0xFFFF#16 &&& ~~~(1#16 <<< irqSlave)
  didinit : Bool := false
deriving DecidableEq

/-- `irq_setmask_8259A(mask)`. -/
def irqSetmask8259A (mask : BitVec 16) (s : Picirq) : Picirq × List PicEvent :=
  let s := { s with irqMask8259A := mask }
  if !s.didinit then (s, [])
  else (s,
    [.outb (ioPic1 + 1#32) (mask.setWidth 8), .outb (ioPic2 + 1#32) ((mask >>> 8).setWidth 8),
      .cprintf "enabled interrupts:" []] ++
    ((List.range 16).filter fun i => (~~~mask).getLsbD i).map (fun i => .cprintf " %d" [i]) ++
    [.cprintf "\n" []])

/-- What `pic_init` writes before it sets the mask. -/
def picInitWrites : List PicEvent :=
  [ -- mask all interrupts
    .outb (ioPic1 + 1#32) 0xFF#8, .outb (ioPic2 + 1#32) 0xFF#8,
    -- ICW1 to ICW4 of the master
    .outb ioPic1 0x11#8, .outb (ioPic1 + 1#32) (BitVec.ofNat 8 irqOffset),
    .outb (ioPic1 + 1#32) (1#8 <<< irqSlave), .outb (ioPic1 + 1#32) 0x3#8,
    -- ICW1 to ICW4 of the slave
    .outb ioPic2 0x11#8, .outb (ioPic2 + 1#32) (BitVec.ofNat 8 (irqOffset + 8)),
    .outb (ioPic2 + 1#32) (BitVec.ofNat 8 irqSlave), .outb (ioPic2 + 1#32) 0x01#8,
    -- OCW3: the special mask mode is set, and the command port reads IRR
    .outb ioPic1 0x68#8, .outb ioPic1 0x0A#8, .outb ioPic2 0x68#8, .outb ioPic2 0x0A#8]

/-- `pic_init()`. -/
def picInit (s : Picirq) : Picirq × List PicEvent :=
  let s := { s with didinit := true }
  if s.irqMask8259A ≠ 0xFFFF#16 then
    let (s, events) := irqSetmask8259A s.irqMask8259A s
    (s, picInitWrites ++ events)
  else (s, picInitWrites)

/-! ### The controllers -/

/-- `outb(port, data)`, for the ports of the controllers. -/
def Pics.outb (port : Word) (data : BitVec 8) (s : Pics) : Pics :=
  if port = ioPic1 then { s with master := s.master.command data }
  else if port = ioPic1 + 1#32 then { s with master := s.master.data data }
  else if port = ioPic2 then { s with slave := s.slave.command data }
  else if port = ioPic2 + 1#32 then { s with slave := s.slave.data data }
  else s

/-- What an event does to the controllers. -/
def PicEvent.run : PicEvent → Pics → Pics
  | .outb port data, s => s.outb port data
  | .cprintf _ _, s => s

/-- What it shows on the console. -/
def PicEvent.shown : PicEvent → List PicEvent
  | .outb _ _ => []
  | .cprintf fmt args => [.cprintf fmt args]

/-- A call of the driver. -/
inductive PicCall where
  | init
  | setmask (mask : BitVec 16)
deriving DecidableEq

/-- The call. -/
def PicCall.run : PicCall → Picirq → Picirq × List PicEvent
  | .init => picInit
  | .setmask mask => irqSetmask8259A mask

/-- The driver and the controllers. -/
structure PicSystem where
  pics : Pics
  driver : Picirq := {}
  /-- What the running call has still to do. -/
  todo : List PicEvent := []
  /-- The last call. -/
  last : Option PicCall := none
  /-- What the last call has printed. -/
  printed : List PicEvent := []
  /-- The interrupts that the processor has taken since `pic_init` was last called. -/
  taken : List Taken := []

/-- What happens next. -/
inductive PicOp where
  /-- A device asks for service, or does not any more. -/
  | signal (n : Fin 16) (on : Bool)
  /-- A call begins. -/
  | call (c : PicCall)
  /-- The running call goes on. -/
  | go
  /-- The processor takes an interrupt. -/
  | acknowledge
deriving DecidableEq

/-- One step. -/
def picStep (s : PicSystem) : PicOp → Option PicSystem
  | .signal n on => some { s with pics := s.pics.signal n on }
  | .call c =>
    match s.todo with
    | [] =>
      let (driver, todo) := c.run s.driver
      some { s with
        driver := driver, todo := todo, last := some c, printed := []
        taken := if c = .init then [] else s.taken }
    | _ => none
  | .go =>
    match s.todo with
    | [] => none
    | e :: todo => some { s with
        pics := e.run s.pics
        todo := todo
        printed := s.printed ++ e.shown }
  | .acknowledge =>
    match s.todo with
    | [] =>
      let (x, pics) := s.pics.acknowledge
      some { s with pics := pics, taken := s.taken ++ [x] }
    | _ => none

/-- The driver and the controllers, as they go on. -/
def PicStep (s : PicSystem) (op : PicOp) (s' : PicSystem) : Prop := picStep s op = some s'

end Jos
