import Jos.Kern.StabSearch
import Jos.Library.Halving

/-!
# `stab_binsearch` ends and stays inside its region

`stab_binsearch` comes to an end for every array of stabs, sorted or not, and reads no entry
outside of the region it is called with (`stabSearch_bounded`). No `int` overflows when the right
end is below `2 ^ 30`: the sum of two indices is then below `2 ^ 31`.

A round makes the region smaller, except for one that finds the address exactly and at the left
end of the region. But then `addr` is incremented, and the entry there is not at the new address,
also when that is 0. So the measure is twice the size of the region, and one more while the entry
at its left end is at the address (`StabReader.rounds`).

Everything is proved for any reader that finds the entries of an array `stabs` in the region
(`StabReader.Reads`). What the rounds do is said once (`Round`): an invariant that every kind of
round keeps holds when the loop ends (`StabReader.settles_stabBinsearch`).
-/

namespace Jos

open MarkedTable

/-- The entries whose `n_type` is the `int` `type`, and their addresses. -/
def typedBy (stabs : ℤ → Stab) (type : Word) : MarkedTable ℕ where
  marked i := (stabs i).nType.setWidth 32 = type
  value i := (stabs i).nValue.toNat

/-- What a round can do. -/
inductive Round (T : MarkedTable ℕ) (s : Binsearch) : Binsearch → Prop
  | skip : T.probe s.l s.r = none → Round T s { s with l := (s.l + s.r).tdiv 2 + 1 }
  | low {m : ℤ} : T.probe s.l s.r = some m → T.value m < s.addr.toNat →
      Round T s { s with anyMatches := true, regionLeft := m, l := (s.l + s.r).tdiv 2 + 1 }
  | high {m : ℤ} : T.probe s.l s.r = some m → s.addr.toNat < T.value m →
      Round T s { s with anyMatches := true, regionRight := m - 1, r := m - 1 }
  | exact {m : ℤ} : T.probe s.l s.r = some m → T.value m = s.addr.toNat →
      Round T s { s with anyMatches := true, regionLeft := m, l := m, addr := s.addr + 1#32 }

/-- What every round keeps. -/
structure Searching (L R : ℤ) (s : Binsearch) : Prop where
  l_ge : L ≤ s.l
  r_le : s.r ≤ R
  left_ge : L ≤ s.regionLeft
  right_le : s.regionRight ≤ R
  left_eq : s.anyMatches = false → s.regionLeft = L

theorem Round.searching {T : MarkedTable ℕ} {L R : ℤ} {s s' : Binsearch} (h : Searching L R s)
    (hle : s.l ≤ s.r) (hround : Round T s s') : Searching L R s' := by
  have hl := h.l_ge
  have hr := h.r_le
  have hmid := tdiv_two_bounds hle
  cases hround with
  | skip => exact { h with l_ge := by dsimp only; omega }
  | low hp =>
    obtain ⟨-, hlm, -, -⟩ := probe_eq_some hle hp
    exact { h with
      l_ge := by dsimp only; omega
      left_ge := by dsimp only; omega
      left_eq := fun hc => by cases hc }
  | high hp =>
    obtain ⟨-, -, hup, -⟩ := probe_eq_some hle hp
    exact { h with
      r_le := by dsimp only; omega
      right_le := by dsimp only; omega
      left_eq := fun hc => by cases hc }
  | exact hp =>
    obtain ⟨-, hlm, -, -⟩ := probe_eq_some hle hp
    exact { h with
      l_ge := by dsimp only; omega
      left_ge := by dsimp only; omega
      left_eq := fun hc => by cases hc }

namespace StabReader

variable {ω ε : Type} {reader : StabReader ω ε} {entry : ℤ → ω} {E : ε → Prop}
  {stabs : ℤ → Stab} {type : Word} {L R : ℤ} {n : ℕ}

/-! ### How many rounds there may still be -/

/-- Two for each index of the region, and one more when the entry at its left end is the one that
is looked for. -/
def rounds (stabs : ℤ → Stab) (s : Binsearch) : ℕ :=
  2 * (s.r + 1 - s.l).toNat + if (stabs s.l).nValue = s.addr then 1 else 0

theorem rounds_le (stabs : ℤ → Stab) (s : Binsearch) :
    rounds stabs s ≤ 2 * (s.r + 1 - s.l).toNat + 1 := by
  unfold rounds
  split <;> omega

theorem le_rounds (stabs : ℤ → Stab) (s : Binsearch) :
    2 * (s.r + 1 - s.l).toNat ≤ rounds stabs s := Nat.le_add_right _ _

/-- A smaller region needs fewer rounds. -/
theorem rounds_lt {s s' : Binsearch} (hle : s.l ≤ s.r) (hsize : s'.r - s'.l < s.r - s.l) :
    rounds stabs s' < rounds stabs s := by
  have hup := rounds_le stabs s'
  have hlow := le_rounds stabs s
  omega

/-- An exact match: the region is smaller, or its left end is not found again. -/
theorem rounds_exact {s : Binsearch} {m : ℤ} (hlm : s.l ≤ m) (hmr : m ≤ s.r)
    (hm : (stabs m).nValue = s.addr) :
    rounds stabs { s with anyMatches := true, regionLeft := m, l := m, addr := s.addr + 1#32 } <
      rounds stabs s := by
  obtain rfl | hlt := eq_or_lt_of_le hlm
  · have hne : (stabs s.l).nValue ≠ s.addr + 1#32 := by
      rw [hm]
      intro hc
      have heq := congrArg BitVec.toNat hc
      have hlt := s.addr.isLt
      rw [BitVec.toNat_add, BitVec.toNat_ofNat] at heq
      omega
    unfold rounds
    rw [if_pos hm, if_neg hne]
    exact Nat.lt_succ_self _
  · exact rounds_lt (hlm.trans hmr) (Int.sub_lt_sub_left hlt _)

theorem rounds_round {s s' : Binsearch} (hle : s.l ≤ s.r)
    (h : Round (typedBy stabs type) s s') : rounds stabs s' < rounds stabs s := by
  have hmid := tdiv_two_bounds hle
  cases h with
  | skip => exact rounds_lt hle (by dsimp only; omega)
  | low => exact rounds_lt hle (by dsimp only; omega)
  | high hp =>
    obtain ⟨-, -, hup, -⟩ := probe_eq_some hle hp
    exact rounds_lt hle (by dsimp only; omega)
  | exact hp hv =>
    obtain ⟨-, hlm, hup, -⟩ := probe_eq_some hle hp
    exact rounds_exact hlm (by omega) (BitVec.eq_of_toNat_eq hv)

/-! ### Readers -/

/-- Logging an entry of the region and going on with `a`, or stopping for a reason in `E`. -/
structure Gives {α : Type} (e : ω) (E : ε → Prop) (x : Logged ω ε α) (a : α) : Prop where
  log : x.log = [e]
  result : EndsIn E (fun b => b = a) x.result

/-- The integers a search of the region computes with. -/
def Computed (L R x : ℤ) : Prop := x = L - 1 ∨ L ≤ x ∧ x ≤ R + 1 ∨ 2 * L ≤ x ∧ x ≤ 2 * R

/-- The reader finds the entries of `stabs` in the region, except that it may stop for a reason in
`E`. -/
structure Reads (reader : StabReader ω ε) (entry : ℤ → ω) (stabs : ℤ → Stab) (E : ε → Prop)
    (L R : ℤ) : Prop where
  type {i : ℤ} : L ≤ i → i ≤ R → Gives (entry i) E (reader.nType i) (stabs i).nType
  value {i : ℤ} : L ≤ i → i ≤ R → Gives (entry i) E (reader.nValue i) (stabs i).nValue
  int {x : ℤ} : Computed L R x → (reader.int x).log = [] ∧
    EndsIn E (fun y => y = x) (reader.int x).result

/-- An entry of the region. -/
def InRegion (entry : ℤ → ω) (L R : ℤ) (e : ω) : Prop := ∃ i, L ≤ i ∧ i ≤ R ∧ e = entry i

theorem Gives.settles {α : Type} {i : ℤ} {x : Logged ω ε α} {a : α} (h : Gives (entry i) E x a)
    (hi : L ≤ i) (hR : i ≤ R) :
    Settles (InRegion entry L R) E n (fun _ => x) fun b => b = a := by
  refine .step (fun e he => ?_) h.result
  rw [h.log] at he
  exact ⟨i, hi, hR, List.mem_singleton.mp he⟩

/-- The value of an operation on `int`s, which does not overflow. -/
theorem endsIn_cInt {E : ε → Prop} {e : ε} {x : ℤ} (h : IsInt x ∨ E e) :
    (cInt e x : Logged ω ε ℤ).log = [] ∧
      EndsIn E (fun y => y = x) (cInt e x : Logged ω ε ℤ).result := by
  rw [cInt]
  split
  · exact ⟨rfl, endsIn_ok.mpr rfl⟩
  · next hx => exact ⟨rfl, endsIn_error.mpr (h.resolve_left hx)⟩

/-! ### The loops -/

section Loops

variable (hreads : Reads reader entry stabs E L R)
include hreads

theorem Reads.settles_int {x : ℤ} (hx : Computed L R x) :
    Settles (InRegion entry L R) E n (fun _ => reader.int x) fun y => y = x :=
  .step (fun e he => by rw [(hreads.int hx).1] at he; cases he) (hreads.int hx).2

theorem Reads.settles_type {i : ℤ} (hi : L ≤ i) (hR : i ≤ R) :
    Settles (InRegion entry L R) E n (fun _ => reader.nType i) fun ty => ty = (stabs i).nType :=
  (hreads.type hi hR).settles hi hR

theorem Reads.settles_value {i : ℤ} (hi : L ≤ i) (hR : i ≤ R) :
    Settles (InRegion entry L R) E n (fun _ => reader.nValue i) fun v => v = (stabs i).nValue :=
  (hreads.value hi hR).settles hi hR

/-- The backward scan stops at the last entry of the type, or behind the last index. -/
theorem settles_scanLoop {low m : ℤ} (hL : L ≤ low) (hR : m ≤ R) (hn : (m + 1 - low).toNat < n) :
    Settles (InRegion entry L R) E n (fun fuel => reader.scanLoop type low fuel m) fun m' =>
      m' = ((typedBy stabs type).last (m + 1 - low).toNat m).getD (m - (m + 1 - low).toNat) := by
  set T := typedBy stabs type
  -- what the rest of the scan will find does not change
  let found (m : ℤ) := (T.last (m + 1 - low).toNat m).getD (m - (m + 1 - low).toNat)
  have hcond : ∀ m', m' ≤ m ∧ found m' = found m →
      Settles (InRegion entry L R) E n (fun _ => reader.otherType type low m')
        fun b => if b then low ≤ m' ∧ ¬T.marked m' else found m' = m' := by
    rintro m' ⟨hm', -⟩
    unfold otherType
    -- an entry below `low` is not read
    by_cases hlow : low ≤ m'
    · have hsize : (m' + 1 - low).toNat = (m' - low).toNat + 1 := by omega
      rw [if_pos hlow]
      refine (hreads.settles_type (by omega) (by omega)).bind ?_
      rintro _ rfl
      refine .pure ?_
      by_cases hmark : (stabs m').nType.setWidth 32 = type
      · have hm : T.marked m' = true := decide_eq_true hmark
        rw [if_neg (by simp [hmark])]
        simp only [found, hsize, last, hm, if_pos, Option.getD_some]
      · have hm : T.marked m' = false := decide_eq_false hmark
        rw [if_pos (decide_eq_true hmark), hm]
        exact ⟨hlow, Bool.false_ne_true⟩
    · have hsize : (m' + 1 - low).toNat = 0 := by omega
      rw [if_neg hlow]
      refine .pure ?_
      simp only [found, hsize, last, Bool.false_eq_true, if_false, Option.getD_none,
        Nat.cast_zero, sub_zero]
  have hbody : ∀ m', (m' ≤ m ∧ found m' = found m) → (low ≤ m' ∧ ¬T.marked m') →
      Settles (InRegion entry L R) E n (fun _ => reader.int (m' - 1))
        fun m'' => (m'' ≤ m ∧ found m'' = found m) ∧
          (m'' + 1 - low).toNat < (m' + 1 - low).toNat := by
    rintro m' ⟨hm', hfound⟩ ⟨hlow, hmark⟩
    refine (hreads.settles_int (x := m' - 1) ?_).weaken ?_
    · rw [Computed]
      omega
    rintro _ rfl
    have hsize : (m' + 1 - low).toNat = (m' - 1 + 1 - low).toNat + 1 := by omega
    refine ⟨⟨by omega, hfound ▸ ?_⟩, by omega⟩
    simp only [found, hsize, last, if_neg hmark]
    congr 1
    omega
  refine (Settles.whileLoop hcond hbody ⟨le_rfl, rfl⟩ hn).weaken ?_
  rintro m' ⟨⟨-, hfound⟩, hdone⟩
  exact hdone.symm.trans hfound

/-- One round. -/
theorem settles_round (hn : (R + 1 - L).toNat < n) {s : Binsearch} (hl : L ≤ s.l) (hr : s.r ≤ R)
    (hle : s.l ≤ s.r) :
    Settles (InRegion entry L R) E n (fun fuel => reader.round type fuel s)
      fun s' => Round (typedBy stabs type) s s' := by
  obtain ⟨hlow, hup⟩ := tdiv_two_bounds hle
  -- the region above the middle
  have hupper : Settles (InRegion entry L R) E n
      (fun _ => reader.int ((s.l + s.r).tdiv 2 + 1)) fun l => l = (s.l + s.r).tdiv 2 + 1 :=
    hreads.settles_int (by rw [Computed]; omega)
  refine (hreads.settles_int (x := s.l + s.r) (by rw [Computed]; omega)).bind ?_
  rintro _ rfl
  -- the scan starts at the middle, which is in the region
  refine (settles_scanLoop hreads hl (by omega) (by omega)).bind ?_
  rintro _ rfl
  cases hp : (typedBy stabs type).probe s.l s.r with
  | none =>
    have hlast := hp
    rw [probe] at hlast
    rw [hlast, Option.getD_none, if_pos (by omega)]
    refine hupper.bind ?_
    rintro _ rfl
    exact .pure (.skip hp)
  | some m =>
    obtain ⟨-, hlm, hmm, -⟩ := probe_eq_some hle hp
    have hlast := hp
    rw [probe] at hlast
    rw [hlast, Option.getD_some, if_neg (by omega)]
    refine (hreads.settles_value (by omega) (by omega)).bind ?_
    rintro _ rfl
    -- the three ways of the comparison
    by_cases hlt : (stabs m).nValue < s.addr
    · rw [if_pos hlt]
      refine hupper.bind ?_
      rintro _ rfl
      exact .pure (.low hp (BitVec.lt_def.mp hlt))
    · rw [if_neg hlt]
      by_cases hgt : s.addr < (stabs m).nValue
      · rw [if_pos hgt]
        refine (hreads.settles_int (x := m - 1) (by rw [Computed]; omega)).bind ?_
        rintro _ rfl
        exact .pure (.high hp (BitVec.lt_def.mp hgt))
      · rw [if_neg hgt]
        have heq : (stabs m).nValue = s.addr :=
          BitVec.le_antisymm (BitVec.not_lt.mp hgt) (BitVec.not_lt.mp hlt)
        exact .pure (.exact hp (congrArg BitVec.toNat heq))

/-- All the rounds: what each of them keeps holds when the region is empty. -/
theorem settles_searchLoop {I : Binsearch → Prop}
    (hround : ∀ s s', I s → s.l ≤ s.r → Round (typedBy stabs type) s s' → I s')
    {addr : Word} (hstart : I ⟨L, R, false, L, R, addr⟩) :
    Settles (InRegion entry L R) E (searchFuel L R)
      (fun fuel => reader.searchLoop type fuel ⟨L, R, false, L, R, addr⟩)
      fun s => (Searching L R s ∧ I s) ∧ s.r < s.l := by
  have hcond : ∀ s, Searching L R s ∧ I s →
      Settles (InRegion entry L R) E (searchFuel L R)
        (fun _ => (pure (s.l ≤ s.r) : Logged ω ε Bool))
        fun b => if b then s.l ≤ s.r else s.r < s.l := by
    intro s _
    refine .pure ?_
    by_cases hle : s.l ≤ s.r
    · rw [if_pos (decide_eq_true hle)]
      exact hle
    · rw [if_neg (by simp [hle])]
      exact not_le.mp hle
  have hbody : ∀ s, Searching L R s ∧ I s → s.l ≤ s.r →
      Settles (InRegion entry L R) E (searchFuel L R) (fun fuel => reader.round type fuel s)
        fun s' => (Searching L R s' ∧ I s') ∧ rounds stabs s' < rounds stabs s := by
    rintro s ⟨hs, hI⟩ hle
    have hn : (R + 1 - L).toNat < searchFuel L R := by
      rw [searchFuel]
      omega
    refine (settles_round hreads hn hs.l_ge hs.r_le hle).weaken fun s' h => ?_
    exact ⟨⟨h.searching hs hle, hround s s' hI hle h⟩, rounds_round hle h⟩
  exact Settles.whileLoop hcond hbody ⟨⟨le_rfl, le_rfl, le_rfl, le_rfl, fun _ => rfl⟩, hstart⟩
    (Nat.lt_succ_of_le (rounds_le stabs _))

/-- The whole search, which ends with the scan back from the right bound. -/
theorem settles_stabBinsearch {I : Binsearch → Prop} (type addr : Word)
    (hround : ∀ s s', I s → s.l ≤ s.r → Round (typedBy stabs type) s s' → I s')
    (hstart : I ⟨L, R, false, L, R, addr⟩) :
    Settles (InRegion entry L R) E (searchFuel L R) (reader.stabBinsearch L R type addr) fun b =>
      ∃ s, Searching L R s ∧ I s ∧ s.r < s.l ∧
        b = if s.anyMatches then
            (((typedBy stabs type).last (s.regionRight - s.regionLeft).toNat s.regionRight).getD
              (s.regionRight - (s.regionRight - s.regionLeft).toNat), s.regionRight)
          else (s.regionLeft, s.regionLeft - 1) := by
  refine (settles_searchLoop hreads hround hstart).bind ?_
  rintro s ⟨⟨hs, hI⟩, hend⟩
  have hleft := hs.left_ge
  have hright := hs.right_le
  cases hany : s.anyMatches with
  | true =>
    have hsize : (s.regionRight + 1 - (s.regionLeft + 1)).toNat =
        (s.regionRight - s.regionLeft).toNat := by omega
    refine (settles_scanLoop hreads (by omega) hright (by rw [searchFuel]; omega)).bind ?_
    rintro _ rfl
    exact .pure ⟨s, hs, hI, hend, by rw [hany, if_pos rfl, hsize]⟩
  | false =>
    refine (hreads.settles_int (x := s.regionLeft - 1) (.inl (by rw [hs.left_eq hany]))).bind ?_
    rintro _ rfl
    exact .pure ⟨s, hs, hI, hend, by rw [hany, if_neg Bool.false_ne_true]⟩

end Loops

end StabReader

/-! ### An array -/

/-- The entries of an array are read without a fault, and indices below `2 ^ 30` do not overflow. -/
theorem arrayReader_reads (stabs : ℤ → Stab) {L R : ℤ} (h0 : 0 ≤ L) (hL : L < 2 ^ 31)
    (hR : R < 2 ^ 30) : (arrayReader stabs).Reads id stabs (fun _ => False) L R where
  type _ _ := ⟨rfl, endsIn_ok.mpr rfl⟩
  value _ _ := ⟨rfl, endsIn_ok.mpr rfl⟩
  int hx := StabReader.endsIn_cInt (.inl (by rw [StabReader.Computed] at hx; rw [IsInt]; omega))

/-- **The search of the stabs ends and stays in its region.** Whatever is in the array, the loops
come to an end, after a number of rounds that depends on the region only, and no `int` overflows;
every index that is read is in the region, and the right end that is returned is in it too. -/
theorem stabSearch_bounded (stabs : ℤ → Stab) {L R : ℤ} (h0 : 0 ≤ L) (hL : L < 2 ^ 31)
    (hR : R < 2 ^ 30) (type addr : Word) :
    ∃ log left right,
      (∀ fuel, 2 * (R + 1 - L).toNat + 2 ≤ fuel →
        stabSearch stabs L R type addr fuel = ⟨log, .ok (left, right)⟩) ∧
      (∀ i ∈ log, L ≤ i ∧ i ≤ R) ∧ (L ≤ R → right ≤ R) := by
  obtain ⟨log, ⟨left, right⟩, hrun, hlog, s, hs, -, -, hbounds⟩ :=
    (StabReader.settles_stabBinsearch (I := fun _ => True) (arrayReader_reads stabs h0 hL hR)
      type addr (fun _ _ _ _ _ => trivial) trivial).value
  refine ⟨log, left, right, hrun, fun i hi => ?_, fun hLR => ?_⟩
  · obtain ⟨j, hj, hjR, rfl⟩ := hlog i hi
    exact ⟨hj, hjR⟩
  · have hright := hs.right_le
    cases hany : s.anyMatches with
    | true =>
      rw [hany, if_pos rfl] at hbounds
      cases hbounds
      exact hright
    | false =>
      have hleft := hs.left_eq hany
      rw [hany, if_neg Bool.false_ne_true] at hbounds
      cases hbounds
      omega

/-- Functions in no order, two of them at the last address, and a line between them. -/
def unsortedStabs (i : ℤ) : Stab :=
  [⟨1#32, nFun, 0#16, 0xFFFFFFFF#32⟩, ⟨9#32, nFun, 0#16, 4#32⟩, ⟨0#32, nSline, 5#16, 0#32⟩,
    ⟨5#32, nFun, 0#16, 0xFFFFFFFF#32⟩].getD i.toNat ⟨0#32, 0#8, 0#16, 0#32⟩

/-- A search that finds the last address, and goes on with 0. -/
theorem stabSearch_bounded_unsorted :
    (0 : ℤ) ≤ 0 ∧ (0 : ℤ) < 2 ^ 31 ∧ (3 : ℤ) < 2 ^ 30 ∧ ∃ log left right,
      (∀ fuel, 10 ≤ fuel →
        stabSearch unsortedStabs 0 3 (nFun.setWidth 32) 0xFFFFFFFF#32 fuel =
          ⟨log, .ok (left, right)⟩) ∧
      (∀ i ∈ log, 0 ≤ i ∧ i ≤ 3) ∧ ((0 : ℤ) ≤ 3 → right ≤ 3) :=
  ⟨by decide, by decide, by decide,
    stabSearch_bounded (L := 0) (R := 3) unsortedStabs (by decide) (by decide) (by decide) _ _⟩

-- the last entry is met in two rounds: at the address, and above the one that wrapped around
example : (stabSearch unsortedStabs 0 3 (nFun.setWidth 32) 0xFFFFFFFF#32 10).log =
    [1, 1, 2, 3, 3, 3, 3] := by decide

end Jos
