import Jos.Kern.Pmap

/-!
# The self-test of the free list

`check_page_free_list` of `kern/pmap.c`, which `mem_init` calls behind `page_init` and again with
its own page directory.

* For `only_low_memory` it relinks the list in place. A `struct PageInfo **` there points to one
  of two local variables or to the link of a page (`LinkPtr`). The variables are not
  initialised, so what they hold at the beginning is a parameter.
* Its loops follow the links of the list. A loop without an end runs out of fuel.
* What it writes into the pages does not change `pages`: memory and `pages` are separate here.
  The message it prints at the end is left out.
-/

namespace Jos

/-- Why a self-test does not return. -/
inductive CheckAbort where
  | panic (p : Panic)
  | looping
deriving DecidableEq, Repr

/-- `assert(x)`, with the text of `x`. -/
def assert (x : Prop) [Decidable x] (text : String) : Except CheckAbort Unit :=
  if x then .ok () else .error (.panic ⟨"assertion failed: " ++ text⟩)

/-- `for (pp = hd; pp; pp = pp->pp_link)`. `link` is `pp_link` as the body leaves it. -/
def forPages {β : Type} (link : β → ℕ → Option ℕ) (body : ℕ → β → Except CheckAbort β) :
    ℕ → Option ℕ → β → Except CheckAbort β
  | 0, _, _ => .error .looping
  | _ + 1, none, s => .ok s
  | fuel + 1, some pp, s => do
    let s ← body pp s
    forPages link body fuel (link s pp) s

/-! ### Moving the low pages -/

/-- What a `struct PageInfo **` of `check_page_free_list` points to. -/
inductive LinkPtr where
  | pp1
  | pp2
  | link (pp : ℕ)
deriving DecidableEq, Repr

/-- The local variables, and the state with the links. -/
structure Relink where
  pp1 : Option ℕ
  pp2 : Option ℕ
  /-- `tp[0]` and `tp[1]`. -/
  tp : Bool → LinkPtr
  state : State

namespace Relink

/-- `*p`. -/
def load (s : Relink) : LinkPtr → Option ℕ
  | .pp1 => s.pp1
  | .pp2 => s.pp2
  | .link pp => s.state.link pp

/-- `*p = v`. -/
def store (s : Relink) (v : Option ℕ) : LinkPtr → Relink
  | .pp1 => { s with pp1 := v }
  | .pp2 => { s with pp2 := v }
  | .link pp => { s with state := s.state.setLink pp v }

end Relink

/-- `{ &pp1, &pp2 }`. -/
def listStart (high : Bool) : LinkPtr := if high then .pp2 else .pp1

/-- `PDX(page2pa(pp)) >= pdx_limit`. -/
def pagetype (pdxLimit pp : ℕ) : Bool := pdxLimit ≤ (pdx (page2pa pp)).val

/-- The body of the loop that distributes the pages. -/
def relinkStep (pdxLimit pp : ℕ) (s : Relink) : Relink :=
  let s := s.store (some pp) (s.tp (pagetype pdxLimit pp))
  { s with tp := Function.update s.tp (pagetype pdxLimit pp) (.link pp) }

/-- `*tp[1] = 0`, `*tp[0] = pp2` and `page_free_list = pp1`. -/
def Relink.finish (s : Relink) : State :=
  let s := s.store none (s.tp true)
  let s := s.store s.pp2 (s.tp false)
  { s.state with pageFreeList := s.pp1 }

/-- Move the pages with lower addresses to the front of the free list. -/
def moveLowPages (pdxLimit fuel : ℕ) (pp1 pp2 : Option ℕ) (σ : State) :
    Except CheckAbort State := do
  let s ← forPages (fun s => s.state.link) (fun pp s => .ok (relinkStep pdxLimit pp s)) fuel
    σ.pageFreeList ⟨pp1, pp2, listStart, σ⟩
  return s.finish

/-! ### The checks -/

/-- `memset(page2kva(pp), 0x97, 128)` for a page below the limit. -/
def spoilPage (B : Boot) (pdxLimit pp : ℕ) (σ : State) : Except CheckAbort State :=
  if (pdx (page2pa pp)).val < pdxLimit then do
    let kva ← (page2kva B pp).mapError .panic
    return σ.setFrame (frameAt kva) fun i =>
      if i.val < 32 then 0x97979797#32 else σ.mem (frameAt kva) i
  else return σ

/-- The assertions about a page, and `nfree_basemem` and `nfree_extmem` with this page. That a
pointer is at or behind `pages` and at a multiple of the size is true of every index. -/
def checkPage (B : Boot) (pp : ℕ) (nfree : ℕ × ℕ) : Except CheckAbort (ℕ × ℕ) := do
  assert (pp < B.npages) "pp < pages + npages"
  assert (page2pa pp ≠ 0#32) "page2pa(pp) != 0"
  assert (page2pa pp ≠ iophysmem) "page2pa(pp) != IOPHYSMEM"
  assert (page2pa pp ≠ extphysmem - pgsize) "page2pa(pp) != EXTPHYSMEM - PGSIZE"
  assert (page2pa pp ≠ extphysmem) "page2pa(pp) != EXTPHYSMEM"
  if extphysmem ≤ page2pa pp then
    let kva ← (page2kva B pp).mapError .panic
    assert (B.bootFree ≤ kva)
      "page2pa(pp) < EXTPHYSMEM || (char *) page2kva(pp) >= first_free_page"
  assert (page2pa pp ≠ mpentryPaddr) "page2pa(pp) != MPENTRY_PADDR"
  if page2pa pp < extphysmem then return (nfree.1 + 1, nfree.2)
  else return (nfree.1, nfree.2 + 1)

/-- `only_low_memory ? 1 : NPDENTRIES`. -/
def pdxLimit (onlyLowMemory : Bool) : ℕ := if onlyLowMemory then 1 else npdentries

/-- `check_page_free_list(only_low_memory)`. -/
def checkPageFreeList (B : Boot) (onlyLowMemory : Bool) (fuel : ℕ) (pp1 pp2 : Option ℕ)
    (σ : State) : Except CheckAbort State :=
  if σ.pageFreeList = none then .error (.panic ⟨"'page_free_list' is a null pointer!"⟩)
  else do
    let σ ← (if onlyLowMemory then moveLowPages (pdxLimit onlyLowMemory) fuel pp1 pp2 σ
      else .ok σ : Except CheckAbort State)
    let σ ← forPages State.link (spoilPage B (pdxLimit onlyLowMemory)) fuel σ.pageFreeList σ
    let nfree ← forPages (fun _ => σ.link) (checkPage B) fuel σ.pageFreeList (0, 0)
    assert (0 < nfree.1) "nfree_basemem > 0"
    assert (0 < nfree.2) "nfree_extmem > 0"
    return σ

end Jos
