import Jos.Inc.Elf

/-!
# The boot loader

`bootmain`, `readseg` and `readsect` of `boot/main.c`. They run before paging is enabled, with an
identity mapping of the segments, so an address is an address of physical memory.

* The disk is the first one on the controller: byte `k` of sector `s` is `disk (512 * s + k)`. It
  is ready whenever it is asked.
* Memory is the bytes at all addresses. The code of the loader and its stack are not part of it.
* The loops of the source need not end. Each one gets `fuel` for that many tests of its
  condition, and `none` means that it has run out.
-/

namespace Jos.BootMain

/-- The bytes of the disk. -/
abbrev Disk := ℕ → Byte

/-- Physical memory. -/
abbrev Memory := Word → Byte

/-- `SECTSIZE`. -/
def sectsize : Word := 512#32

/-- `ELFHDR`, the scratch space for the headers. -/
def elfhdr : Word := 0x10000#32

/-- `ELF_MAGIC`. -/
def elfMagic : Word := 0x464C457F#32

/-! ### Reading from the disk -/

/-- The sector that the writes to the ports 0x1F3 to 0x1F6 select. The drive takes four bits from
the last one. -/
def selected (offset : Word) : ℕ :=
  let port1F3 := offset.setWidth 8
  let port1F4 := (offset >>> 8).setWidth 8
  let port1F5 := (offset >>> 16).setWidth 8
  let port1F6 := ((offset >>> 24) ||| 0xE0#32).setWidth 8
  port1F3.toNat + 2 ^ 8 * port1F4.toNat + 2 ^ 16 * port1F5.toNat +
    2 ^ 24 * (port1F6 &&& 0x0F#8).toNat

/-- `insl(port, addr, cnt)`: `cnt` longs from the port, whose bytes are `data`. -/
def insl (data : ℕ → Byte) (addr : Word) (cnt : ℕ) (mem : Memory) : Memory :=
  fun a => if (a - addr).toNat < 4 * cnt then data (a - addr).toNat else mem a

/-- `readsect(dst, offset)`. -/
def readsect (disk : Disk) (dst offset : Word) (mem : Memory) : Memory :=
  insl (fun k => disk (512 * selected offset + k)) dst (512 / 4) mem

/-- The loop of `readseg`. -/
def readsegLoop (disk : Disk) (endPa : Word) : ℕ → Word → Word → Memory → Option Memory
  | 0, _, _, _ => none
  | fuel + 1, pa, offset, mem =>
    if pa < endPa then
      readsegLoop disk endPa fuel (pa + sectsize) (offset + 1#32) (readsect disk pa offset mem)
    else some mem

/-- `readseg(pa, count, offset)`. -/
def readseg (disk : Disk) (fuel : ℕ) (pa count offset : Word) (mem : Memory) : Option Memory :=
  readsegLoop disk (pa + count) fuel (pa &&& ~~~(sectsize - 1#32)) (offset / sectsize + 1#32) mem

/-! ### `bootmain` -/

/-- A `struct Proghdr`, with the fields `bootmain` looks at. -/
structure Proghdr where
  pOffset : Word
  pPa : Word
  pFilesz : Word
  pMemsz : Word
deriving DecidableEq, Repr

/-- The program header at an address. -/
def proghdrAt (mem : Memory) (ph : Word) : Proghdr where
  pOffset := imageValue mem (ph + 4#32) 4
  pPa := imageValue mem (ph + 12#32) 4
  pFilesz := imageValue mem (ph + 16#32) 4
  pMemsz := imageValue mem (ph + 20#32) 4

/-- The loop that clears the end of a segment. `i` is an `int`, but it is compared with an
unsigned number; the header is in memory, and it is read again each time. -/
def clearLoop (ph : Word) : ℕ → Word → Memory → Option Memory
  | 0, _, _ => none
  | fuel + 1, i, mem =>
    let hdr := proghdrAt mem ph
    if i < hdr.pMemsz - hdr.pFilesz then
      clearLoop ph fuel (i + 1#32) (Function.update mem (hdr.pPa + hdr.pFilesz + i) 0#8)
    else some mem

/-- The body of the loop over the program headers. -/
def loadSegment (disk : Disk) (fuel : ℕ) (ph : Word) (mem : Memory) : Option Memory := do
  let hdr := proghdrAt mem ph
  let mem ← readseg disk fuel hdr.pPa hdr.pMemsz hdr.pOffset mem
  clearLoop ph fuel 0#32 mem

/-- The loop over the program headers in `[ph, eph)`. -/
def loadLoop (disk : Disk) (fuel : ℕ) (eph : Word) : ℕ → Word → Memory → Option Memory
  | 0, _, _ => none
  | n + 1, ph, mem =>
    if ph < eph then do
      let mem ← loadSegment disk fuel ph mem
      loadLoop disk fuel eph n (ph + 32#32) mem
    else some mem

/-- How `bootmain` leaves. -/
inductive Exit
  /-- the call of the entry point -/
  | jump (entry : Word) (mem : Memory)
  /-- the label `bad`, and the loop that does nothing -/
  | bad

/-- `bootmain()`, up to where it leaves. -/
def bootmain (disk : Disk) (fuel : ℕ) (mem : Memory) : Option Exit := do
  let mem ← readseg disk fuel elfhdr (sectsize * 8#32) 0#32 mem
  if imageValue mem elfhdr 4 ≠ elfMagic then
    some .bad
  else
    let ph := elfhdr + imageValue mem (elfhdr + 28#32) 4
    let eph := ph + 32#32 * imageValue mem (elfhdr + 44#32) 2
    let mem ← loadLoop disk fuel eph fuel ph mem
    some (.jump (imageValue mem (elfhdr + 24#32) 4) mem)

end Jos.BootMain
