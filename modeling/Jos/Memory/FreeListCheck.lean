import Jos.Kern.Check
import Jos.Library.Buckets
import Jos.Memory.KernelMap

/-!
# What `check_page_free_list` does to the free list

For `only_low_memory` the list is relinked in place: first the pages below 4 MB, then the others,
both in the order in which they were (`lowFirst`). While the loop follows the links, the pages
behind it are two lists that start at the local variables `pp1` and `pp2` and end at the links
`tp[0]` and `tp[1]` point to (`Relinked`). Only these two places are written, so the rest of the
list is still there.

The variables `pp1` and `pp2` are not initialised, and it does not matter: one of the two is
read only after the list that starts there, if need be an empty one, has been ended or joined.

A test that returns leaves behind what `Checked` says (`checkPageFreeList_checked`). The one of
the list that `page_init` builds does not return: the page at `MPENTRY_PADDR` is on that list
(`checkPageFreeList_mpentry`).
-/

namespace Jos

variable {B : Boot} {σ σ' : State} {l : List ℕ}

/-! ### Loops over the list -/

/-- A loop over a list with an end, with a body that leaves the links of the pages alone that
are not behind it. -/
theorem forPages_ok {β : Type} {link : β → ℕ → Option ℕ} {body : ℕ → β → Except CheckAbort β}
    {P : List ℕ → β → Prop} {seen : List ℕ} {hd : Option ℕ} {s : β}
    (hbody : ∀ seen pp s, pp ∈ l → pp ∉ seen → P seen s →
      ∃ s', body pp s = .ok s' ∧ P (seen ++ [pp]) s' ∧ ∀ q ∉ seen, link s' q = link s q)
    (hP : P seen s) (h : Chain (link s) hd l) (hnew : ∀ p ∈ l, p ∉ seen) :
    ∃ s', P (seen ++ l) s' ∧ ∀ fuel, l.length < fuel → forPages link body fuel hd s = .ok s' := by
  induction l generalizing seen hd s with
  | nil =>
    refine ⟨s, by rwa [List.append_nil], fun fuel hfuel => ?_⟩
    obtain ⟨fuel, rfl⟩ := Nat.exists_eq_add_one_of_ne_zero hfuel.ne'
    rw [h.head_none_iff.mpr rfl]
    rfl
  | cons pp l ih =>
    obtain ⟨hpp, hnew⟩ := List.forall_mem_cons.mp hnew
    have hnot : pp ∉ l := (List.nodup_cons.mp h.nodup).1
    obtain ⟨s₁, hrun₁, hP₁, hlink⟩ := hbody seen pp s List.mem_cons_self hpp hP
    -- the rest of the list is as it was, also seen from `pp`
    have hrest : Chain (link s₁) (link s₁ pp) l := by
      rw [hlink pp hpp]
      exact h.tail.congr fun q hq => hlink q (hnew q hq)
    have hnew₁ : ∀ p ∈ l, p ∉ seen ++ [pp] := by
      intro p hp
      rw [List.mem_append, List.mem_singleton, not_or]
      exact ⟨hnew p hp, ne_of_mem_of_not_mem hp hnot⟩
    obtain ⟨s', hP', hrun⟩ := ih
      (fun seen q s hq => hbody seen q s (List.mem_cons_of_mem _ hq)) hP₁ hrest hnew₁
    rw [List.append_assoc] at hP'
    refine ⟨s', hP', fun fuel hfuel => ?_⟩
    obtain ⟨fuel, rfl⟩ := Nat.exists_eq_add_one_of_ne_zero (Nat.ne_zero_of_lt hfuel)
    rw [h.head_eq, forPages, hrun₁]
    exact hrun fuel (Nat.lt_of_succ_lt_succ hfuel)

/-! ### Moving the low pages -/

theorem places_relink : Places listStart LinkPtr.link where
  head_inj := by decide
  slot_inj _ _ h := LinkPtr.link.inj h
  head_ne_slot i _ := by cases i <;> exact fun h => by cases h

/-- A store changes the place it goes to. -/
theorem Relink.load_store (s : Relink) (v : Option ℕ) (p : LinkPtr) :
    (s.store v p).load = Function.update s.load p v := by
  funext q
  cases p with
  | pp1 => cases q <;> rfl
  | pp2 => cases q <;> rfl
  | link pp =>
    cases q with
    | pp1 => rfl
    | pp2 => rfl
    | link q =>
      change (s.state.setLink pp v).link q = _
      rw [link_setLink]
      by_cases hq : q = pp
      · rw [hq, Function.update_self, Function.update_self]
      · rw [Function.update_of_ne hq, Function.update_of_ne fun hc => hq (LinkPtr.link.inj hc)]
        rfl

theorem Relink.link_store (s : Relink) (v : Option ℕ) {p : LinkPtr} {pp : ℕ} (hp : .link pp ≠ p) :
    (s.store v p).state.link pp = s.state.link pp := by
  change (s.store v p).load (.link pp) = s.load (.link pp)
  rw [s.load_store, Function.update_of_ne hp]

/-- What a store leaves alone, be it to a variable or to a link. -/
theorem Relink.store_same (s : Relink) (v : Option ℕ) (p : LinkPtr) :
    (s.store v p).tp = s.tp ∧ (s.store v p).state.ref = s.state.ref ∧
      SameData s.state (s.store v p).state := by
  cases p with
  | pp1 => exact ⟨rfl, rfl, rfl, rfl, rfl, rfl, rfl⟩
  | pp2 => exact ⟨rfl, rfl, rfl, rfl, rfl, rfl, rfl⟩
  | link pp => exact ⟨rfl, ref_setLink s.state pp v, rfl, rfl, rfl, rfl, rfl⟩

theorem relinkStep_load (pdxLimit pp : ℕ) (s : Relink) :
    (relinkStep pdxLimit pp s).load =
      Function.update s.load (s.tp (pagetype pdxLimit pp)) (some pp) := by
  rw [← Relink.load_store]
  funext q
  cases q <;> rfl

theorem relinkStep_tp (pdxLimit pp : ℕ) (s : Relink) :
    (relinkStep pdxLimit pp s).tp = Function.update s.tp (pagetype pdxLimit pp) (.link pp) := by
  have htp := (s.store_same (some pp) (s.tp (pagetype pdxLimit pp))).1
  change Function.update (s.store (some pp) (s.tp (pagetype pdxLimit pp))).tp _ _ = _
  rw [htp]

/-- What the loop has done behind it. -/
structure Relinked (pdxLimit : ℕ) (σ : State) (seen : List ℕ) (s : Relink) : Prop where
  nodup : seen.Nodup
  buckets : Buckets listStart LinkPtr.link (pagetype pdxLimit) seen s.load s.tp
  link : ∀ p ∉ seen, s.state.link p = σ.link p
  ref : s.state.ref = σ.ref
  same : SameData σ s.state

/-- One page more. -/
theorem Relinked.step {pdxLimit : ℕ} {seen : List ℕ} {s : Relink} (h : Relinked pdxLimit σ seen s)
    {pp : ℕ} (hpp : pp ∉ seen) : Relinked pdxLimit σ (seen ++ [pp]) (relinkStep pdxLimit pp s) := by
  obtain ⟨-, href, hsame⟩ := s.store_same (some pp) (s.tp (pagetype pdxLimit pp))
  refine ⟨?_, ?_, fun p hp => ?_, href.trans h.ref, h.same.trans hsame⟩
  · exact List.nodup_append.mpr ⟨h.nodup, List.nodup_singleton pp, fun a ha b hb => by
      rw [List.mem_singleton.mp hb]
      exact ne_of_mem_of_not_mem ha hpp⟩
  · rw [relinkStep_load, relinkStep_tp]
    exact h.buckets.put places_relink h.nodup pp
  · have hold : p ∉ seen := fun hc => hp (List.mem_append_left _ hc)
    calc (relinkStep pdxLimit pp s).state.link p
        = s.state.link p := s.link_store _ (h.buckets.slot_ne places_relink hold _)
      _ = σ.link p := h.link p hold

/-- The pages below 4 MB first, in the order in which they were, and then the others. -/
def lowFirst (l : List ℕ) : List ℕ :=
  l.filter (fun p => (pdx (page2pa p)).val < 1) ++ l.filter (fun p => ¬(pdx (page2pa p)).val < 1)

/-- The free list has been relinked, and nothing else has changed. -/
structure LowFirst (σ : State) (l : List ℕ) (σ' : State) : Prop where
  chain : Chain σ'.link σ'.pageFreeList (lowFirst l)
  link : ∀ p ∉ l, σ'.link p = σ.link p
  ref : σ'.ref = σ.ref
  same : SameData σ σ'

theorem lowFirst_perm (l : List ℕ) : (lowFirst l).Perm l := by
  have h := List.filter_append_perm (fun p => decide ((pdx (page2pa p)).val < 1)) l
  simpa only [lowFirst, decide_not] using h

theorem lowFirst_eq (l : List ℕ) :
    lowFirst l = l.filter (fun p => pagetype 1 p = false) ++
      l.filter (fun p => pagetype 1 p = true) := by
  have hlow (p : ℕ) : pagetype 1 p = false ↔ (pdx (page2pa p)).val < 1 := by
    rw [pagetype, decide_eq_false_iff_not, not_le]
  have hhigh (p : ℕ) : pagetype 1 p = true ↔ ¬(pdx (page2pa p)).val < 1 := by
    rw [pagetype, decide_eq_true_iff, not_lt]
  simp only [lowFirst, hlow, hhigh]

/-- The stores behind the loop join the two lists. -/
theorem Relinked.finish {s : Relink} (h : Relinked 1 σ l s) : LowFirst σ l s.finish := by
  set s₁ := s.store none (s.tp true) with hs₁
  set s₂ := s₁.store s₁.pp2 (s₁.tp false) with hs₂
  obtain ⟨htp, href₁, hsame₁⟩ := s.store_same none (s.tp true)
  obtain ⟨-, href₂, hsame₂⟩ := s₁.store_same s₁.pp2 (s₁.tp false)
  -- the list of the high pages gets its end first, and then becomes the end of the other one
  have hended : s₁.load = Function.update s.load (s.tp true) none := s.load_store ..
  have hjoined : s₂.load = Function.update s₁.load (s.tp false) (s₁.load (listStart true)) := by
    rw [hs₂, Relink.load_store, htp]
    rfl
  have hsame : SameData s.state s₂.state := hsame₁.trans hsame₂
  refine ⟨?_, fun p hp => ?_, href₂.trans (href₁.trans h.ref),
    h.same.trans ⟨hsame.mem, hsame.envs, hsame.envFreeList, hsame.cpus, hsame.addr⟩⟩
  · rw [lowFirst_eq]
    exact h.buckets.join places_relink h.nodup Bool.false_ne_true hended hjoined fun _ => rfl
  · calc s₂.state.link p
        = s₁.state.link p := s₁.link_store _ (by
          rw [htp]
          exact h.buckets.slot_ne places_relink hp false)
      _ = s.state.link p := s.link_store _ (h.buckets.slot_ne places_relink hp true)
      _ = σ.link p := h.link p hp

/-- The list that comes out determines the links. -/
theorem LowFirst.unique {σ₁ σ₂ : State} (h₁ : LowFirst σ l σ₁) (h₂ : LowFirst σ l σ₂) :
    σ₁ = σ₂ := by
  have hlink : ∀ p, σ₁.link p = σ₂.link p := by
    intro p
    -- on the list a link is the next page of the order, elsewhere it is the old one
    by_cases hp : p ∈ l
    · exact h₁.chain.links_unique h₂.chain ((lowFirst_perm l).mem_iff.mpr hp)
    · rw [h₁.link p hp, h₂.link p hp]
  have hpages : σ₁.pages = σ₂.pages := by
    funext p
    have href : σ₁.ref p = σ₂.ref p := by rw [h₁.ref, h₂.ref]
    calc σ₁.pages p = ⟨σ₁.link p, σ₁.ref p⟩ := rfl
      _ = ⟨σ₂.link p, σ₂.ref p⟩ := by rw [hlink, href]
      _ = σ₂.pages p := rfl
  have hhead : σ₁.pageFreeList = σ₂.pageFreeList := by
    rw [h₁.chain.head_eq_head?, h₂.chain.head_eq_head?]
  obtain ⟨hmem₁, henvs₁, hfree₁, hcpus₁, haddr₁⟩ := h₁.same
  obtain ⟨hmem₂, henvs₂, hfree₂, hcpus₂, haddr₂⟩ := h₂.same
  cases σ₁
  cases σ₂
  simp_all

theorem moveLowPages_lowFirst (h : Chain σ.link σ.pageFreeList l) (pp1 pp2 : Option ℕ) :
    ∃ σ', LowFirst σ l σ' ∧
      ∀ fuel, l.length < fuel → moveLowPages 1 fuel pp1 pp2 σ = .ok σ' := by
  have hstart : Relinked 1 σ [] ⟨pp1, pp2, listStart, σ⟩ :=
    ⟨List.nodup_nil, .start _, fun _ _ => rfl, rfl, rfl, rfl, rfl, rfl, rfl⟩
  have hstep : ∀ seen pp (s : Relink), pp ∈ l → pp ∉ seen → Relinked 1 σ seen s →
      ∃ s', Except.ok (relinkStep 1 pp s) = (.ok s' : Except CheckAbort Relink) ∧
        Relinked 1 σ (seen ++ [pp]) s' ∧ ∀ q ∉ seen, s'.state.link q = s.state.link q := by
    intro seen pp s _ hpp hs
    refine ⟨_, rfl, hs.step hpp, fun q hq => ?_⟩
    exact s.link_store _ (hs.buckets.slot_ne places_relink hq _)
  obtain ⟨s, hs, hloop⟩ := forPages_ok hstep hstart h fun p _ => List.not_mem_nil
  refine ⟨s.finish, hs.finish, fun fuel hfuel => ?_⟩
  rw [moveLowPages, hloop fuel hfuel]
  rfl

/-- `check_page_free_list(1)` relinks every list that has an end, whatever its uninitialised
variables held. The loop comes to its end, and the list is then the pages below 4 MB and behind
them the others, both in their old order, with no page lost or twice on it, and with an end. -/
theorem moveLowPages_partitions (h : Chain σ.link σ.pageFreeList l) :
    ∃ σ', (∀ pp1 pp2 fuel, l.length < fuel → moveLowPages 1 fuel pp1 pp2 σ = .ok σ') ∧
      LowFirst σ l σ' ∧ (lowFirst l).Perm l ∧ (lowFirst l).Nodup ∧
      ∀ p, (lowFirst l).getLast? = some p → σ'.link p = none := by
  obtain ⟨σ', hσ', -⟩ := moveLowPages_lowFirst h none none
  refine ⟨σ', fun pp1 pp2 fuel hfuel => ?_, hσ', lowFirst_perm l, hσ'.chain.nodup, fun p hp => ?_⟩
  · obtain ⟨σ₁, hσ₁, hok⟩ := moveLowPages_lowFirst h pp1 pp2
    rw [hok fuel hfuel, hσ₁.unique hσ']
  · obtain ⟨init, hinit⟩ := List.getLast?_eq_some_iff.mp hp
    have hchain := hσ'.chain
    rw [hinit] at hchain
    exact hchain.link_last

/-- Pages 5 and 7 are below 4 MB, pages 2000 and 1030 are not. -/
def mixedList : State where
  pages p := ⟨if p = 2000 then some 5 else if p = 5 then some 1030
    else if p = 1030 then some 7 else none, 0#16⟩
  pageFreeList := some 2000
  mem _ _ := 0#32
  envs _ := {}
  envFreeList := none
  cpus _ := {}
  userMemCheckAddr := 0#32

theorem moveLowPages_mixedList :
    Chain mixedList.link mixedList.pageFreeList [2000, 5, 1030, 7] ∧
    ∃ σ', (∀ pp1 pp2 fuel, 4 < fuel → moveLowPages 1 fuel pp1 pp2 mixedList = .ok σ') ∧
      Chain σ'.link σ'.pageFreeList [5, 7, 2000, 1030] := by
  have hchain : Chain mixedList.link mixedList.pageFreeList [2000, 5, 1030, 7] :=
    .cons (.cons (.cons (.cons .nil)))
  obtain ⟨σ', hrun, hlow, -⟩ := moveLowPages_partitions hchain
  exact ⟨hchain, σ', hrun, hlow.chain⟩

/-! ### The whole test -/

/-- The tests have written into some of the pages of a list. -/
structure Spoiled (σ : State) (l : List ℕ) (σ' : State) : Prop where
  pages : σ'.pages = σ.pages
  pageFreeList : σ'.pageFreeList = σ.pageFreeList
  mem : ∀ f ∉ l, σ'.mem f = σ.mem f
  envs : σ'.envs = σ.envs
  envFreeList : σ'.envFreeList = σ.envFreeList

theorem Spoiled.link (h : Spoiled σ l σ') : σ'.link = σ.link := by
  funext p
  rw [State.link, State.link, h.pages]

theorem Spoiled.ref (h : Spoiled σ l σ') : σ'.ref = σ.ref := by
  funext p
  rw [State.ref, State.ref, h.pages]

theorem spoilPage_ok (pdxLimit : ℕ) {pp : ℕ} (hpp : pp < B.npages) (hl : pp ∈ l) {σ₁ : State}
    (h : Spoiled σ l σ₁) : ∃ σ₂, spoilPage B pdxLimit pp σ₁ = .ok σ₂ ∧ Spoiled σ l σ₂ := by
  unfold spoilPage
  split
  · rw [page2kva_of_lt hpp]
    have hframe : frameAt (page2pa pp + kernbase) = pp := by
      rw [frameAt_add_kernbase, pgnum_page2pa (hpp.trans_le B.npages_le)]
    refine ⟨_, rfl, h.pages, h.pageFreeList, fun f hf => ?_, h.envs, h.envFreeList⟩
    have hne : f ≠ pp := fun hc => hf (hc ▸ hl)
    rw [hframe, ← h.mem f hf]
    exact Function.update_of_ne hne ..
  · exact ⟨σ₁, rfl, h⟩

theorem spoilPages_ok (hl : ∀ p ∈ l, p < B.npages) (h : Chain σ.link σ.pageFreeList l)
    (pdxLimit : ℕ) : ∃ σ', Spoiled σ l σ' ∧ ∀ fuel, l.length < fuel →
      forPages State.link (spoilPage B pdxLimit) fuel σ.pageFreeList σ = .ok σ' := by
  have hstep : ∀ (seen : List ℕ) pp (s : State), pp ∈ l → pp ∉ seen → Spoiled σ l s →
      ∃ s', spoilPage B pdxLimit pp s = .ok s' ∧ Spoiled σ l s' ∧
        ∀ q ∉ seen, s'.link q = s.link q := by
    intro seen pp s hpp _ hs
    obtain ⟨s', hrun, hs'⟩ := spoilPage_ok pdxLimit (hl pp hpp) hpp hs
    exact ⟨s', hrun, hs', fun q _ => by rw [hs'.link, hs.link]⟩
  exact forPages_ok hstep ⟨rfl, rfl, fun _ _ => rfl, rfl, rfl⟩ h fun p _ => List.not_mem_nil

/-- The list is the same, or the low pages are moved to its front. -/
theorem relinked_or_same (h : Chain σ.link σ.pageFreeList l) (low : Bool)
    (pp1 pp2 : Option ℕ) :
    ∃ σ' l', l'.Perm l ∧ Chain σ'.link σ'.pageFreeList l' ∧ (∀ p ∉ l, σ'.link p = σ.link p) ∧
      σ'.ref = σ.ref ∧ SameData σ σ' ∧ ∀ fuel, l.length < fuel →
        (if low then moveLowPages (pdxLimit low) fuel pp1 pp2 σ else .ok σ) = .ok σ' := by
  cases low with
  | false =>
    exact ⟨σ, l, .refl l, h, fun _ _ => rfl, rfl, ⟨rfl, rfl, rfl, rfl, rfl⟩, fun _ _ => rfl⟩
  | true =>
    obtain ⟨σ', hσ', hrun⟩ := moveLowPages_lowFirst h pp1 pp2
    exact ⟨σ', lowFirst l, lowFirst_perm l, hσ'.chain, hσ'.link, hσ'.ref, hσ'.same, hrun⟩

/-- The parts of a test that returns, for a list of pages that exist. -/
theorem checkPageFreeList_ok (h : Chain σ.link σ.pageFreeList l) (hl : ∀ p ∈ l, p < B.npages)
    {low : Bool} {fuel : ℕ} {pp1 pp2 : Option ℕ} (hfuel : l.length < fuel)
    (hrun : checkPageFreeList B low fuel pp1 pp2 σ = .ok σ') :
    ∃ σ₁ l₁ nfree, l₁.Perm l ∧ Chain σ₁.link σ₁.pageFreeList l₁ ∧
      (∀ p ∉ l, σ₁.link p = σ.link p) ∧ σ₁.ref = σ.ref ∧ SameData σ σ₁ ∧ Spoiled σ₁ l₁ σ' ∧
      forPages (fun _ => σ'.link) (checkPage B) fuel σ'.pageFreeList (0, 0) = .ok nfree := by
  obtain ⟨σ₁, l₁, hperm, hchain₁, hlink₁, href₁, hsame₁, hmove⟩ :=
    relinked_or_same h low pp1 pp2
  obtain ⟨σ₂, hspoiled, hspoil⟩ := spoilPages_ok (B := B)
    (fun p hp => hl p (hperm.mem_iff.mp hp)) hchain₁ (pdxLimit low)
  have hfuel₁ : l₁.length < fuel := hperm.length_eq ▸ hfuel
  -- the first two loops cannot stop, so the test has come to the third
  unfold checkPageFreeList at hrun
  by_cases hnull : σ.pageFreeList = none
  · rw [if_pos hnull] at hrun
    cases hrun
  · rw [if_neg hnull, hmove fuel hfuel, ok_bind, hspoil fuel hfuel₁, ok_bind] at hrun
    obtain ⟨nfree, hcheck, hrun⟩ := bind_eq_ok.mp hrun
    obtain ⟨-, -, hrun⟩ := bind_eq_ok.mp hrun
    obtain ⟨-, -, hrun⟩ := bind_eq_ok.mp hrun
    obtain rfl : σ₂ = σ' := Except.ok.inj hrun
    exact ⟨σ₁, l₁, nfree, hperm, hchain₁, hlink₁, href₁, hsame₁, hspoiled, hcheck⟩

/-- The test leaves the list in another order at most, and writes only the pages on it. -/
theorem checkPageFreeList_checked (h : Chain σ.link σ.pageFreeList l)
    (hl : ∀ p ∈ l, p < B.npages) {low : Bool} {fuel : ℕ} {pp1 pp2 : Option ℕ}
    (hfuel : l.length < fuel) (hrun : checkPageFreeList B low fuel pp1 pp2 σ = .ok σ') :
    Checked σ σ' := by
  obtain ⟨σ₁, l₁, -, hperm, hchain, hlink, href, hsame, hspoiled, -⟩ :=
    checkPageFreeList_ok h hl hfuel hrun
  have hon : ∀ p, ¬OnFreeList σ p → p ∉ l := fun p hp hc => hp ⟨l, h, hc⟩
  refine ⟨fun l' hl' => ⟨l₁, ?_, ?_⟩, fun p hp => ?_, ?_, fun f hf => ?_, ?_, ?_⟩
  · rw [hspoiled.link, hspoiled.pageFreeList]
    exact hchain
  · rw [h.unique hl'] at hperm
    exact hperm
  · rw [hspoiled.link, hlink p (hon p hp)]
  · rw [hspoiled.ref, href]
  · rw [hspoiled.mem f fun hc => hon f hf (hperm.mem_iff.mp hc), hsame.mem]
  · rw [hspoiled.envs, hsame.envs]
  · rw [hspoiled.envFreeList, hsame.envFreeList]

/-! ### The page at `MPENTRY_PADDR` -/

/-- A loop that returns has seen every page of the list. -/
theorem forPages_mem {β : Type} {link : ℕ → Option ℕ} {body : ℕ → β → Except CheckAbort β}
    {fuel : ℕ} {hd : Option ℕ} {s s' : β} (h : Chain link hd l)
    (hrun : forPages (fun _ => link) body fuel hd s = .ok s') {p : ℕ} (hp : p ∈ l) :
    ∃ s₁ s₂, body p s₁ = .ok s₂ := by
  induction l generalizing fuel hd s with
  | nil => exact absurd hp List.not_mem_nil
  | cons pp l ih =>
    cases fuel with
    | zero => cases hrun
    | succ fuel =>
      rw [h.head_eq, forPages] at hrun
      obtain ⟨s₁, hbody, hrest⟩ := bind_eq_ok.mp hrun
      obtain rfl | hp := List.mem_cons.mp hp
      · exact ⟨s, s₁, hbody⟩
      · exact ih h.tail hrest hp

theorem assert_eq_ok {x : Prop} [Decidable x] {text : String} {u : Unit}
    (h : assert x text = .ok u) : x := by
  unfold assert at h
  split at h
  · assumption
  · cases h

/-- The page of the start code of the other processors fails its assertion. -/
theorem checkPage_mpentry {nfree nfree' : ℕ × ℕ} : checkPage B 7 nfree ≠ .ok nfree' := by
  intro h
  have hbase : ¬extphysmem ≤ page2pa 7 := by decide
  obtain ⟨_, _, h⟩ := bind_eq_ok.mp h
  obtain ⟨_, _, h⟩ := bind_eq_ok.mp h
  obtain ⟨_, _, h⟩ := bind_eq_ok.mp h
  obtain ⟨_, _, h⟩ := bind_eq_ok.mp h
  obtain ⟨_, _, h⟩ := bind_eq_ok.mp h
  rw [if_neg hbase] at h
  obtain ⟨_, hassert, -⟩ := bind_eq_ok.mp h
  exact assert_eq_ok hassert rfl

theorem managed_mpentry (B : Boot) : B.Managed 7 := by
  have hmem := B.fits_mem
  have hend := B.end_ge
  refine ⟨by omega, ?_⟩
  rw [Boot.reserved_iff]
  omega

/-- `page_init` does not mark the page at `MPENTRY_PADDR` as in use, so the test of its list does
not return, on any machine. -/
theorem checkPageFreeList_mpentry (h : Booted B σ) (low : Bool) {fuel : ℕ}
    (hfuel : B.npages ≤ fuel) (pp1 pp2 : Option ℕ) :
    checkPageFreeList B low fuel pp1 pp2 (pageInit B σ) ≠ .ok σ' := by
  intro hrun
  obtain ⟨free, hinv, hmem, -⟩ := pageInit_spec h
  have hlt : ∀ p ∈ free, p < B.npages := fun p hp => ((hmem p).mp hp).1
  -- page 0 is in use, so there are fewer pages on the list than in memory
  have hlen : free.length < fuel := by
    have hsub : 0 :: free ⊆ List.range B.npages := by
      intro p hp
      obtain rfl | hp := List.mem_cons.mp hp
      · exact List.mem_range.mpr (Nat.zero_lt_of_lt (managed_mpentry B).1)
      · exact List.mem_range.mpr (hlt p hp)
    have hnot : 0 ∉ free := fun hc => ((hmem 0).mp hc).2 (.inl rfl)
    have hle := (List.subperm_of_subset (hinv.chain.nodup.cons hnot) hsub).length_le
    rw [List.length_cons, List.length_range] at hle
    omega
  obtain ⟨σ₁, l₁, nfree, hperm, hchain, -, -, -, hspoiled, hcheck⟩ :=
    checkPageFreeList_ok hinv.chain hlt hlen hrun
  have hon : 7 ∈ l₁ := hperm.mem_iff.mpr ((hmem 7).mpr (managed_mpentry B))
  rw [hspoiled.link, hspoiled.pageFreeList] at hcheck
  obtain ⟨_, _, hseen⟩ := forPages_mem hchain hcheck hon
  exact checkPage_mpentry hseen

end Jos
