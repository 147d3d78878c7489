import Jos.Console.Bracket
import Mathlib.Data.Int.LeastGreatest

/-!
# The source line of an address

`debuginfo_eip` narrows the stab table three times: to the source file of the address, to
the function, and to the line. In a table as a compiler writes it (`WellFormedStabs`) each
search brackets what it should (`stabBinsearch_segment`), and the last one leaves the stabs
from the line of the address to the one before the next line. The line number is then taken
from the right end of that bracket. It is the right one when the line's own stab is the only
one there, and otherwise only if the stab at the right end happens to have the same `n_desc`:
`debuginfoEip_line_iff`.
-/

namespace Jos

open Logged

variable {mem : Memory} {t : UserStabData} {stabs : ℤ → Stab} {type : Byte} {L R : ℤ}

/-! ### Segments -/

/-- The entries that belong to entry `i`, which is of type `type`, are those up to `e`. -/
structure Segment (stabs : ℤ → Stab) (type : Byte) (R i e : ℤ) : Prop where
  start : i ≤ e
  stop : e ≤ R
  inside : ∀ j, i < j → j ≤ e → (stabs j).nType ≠ type
  next : e = R ∨ (stabs (e + 1)).nType = type

/-- The values of one type are equal or at least two apart. -/
def ApartStabs (stabs : ℤ → Stab) (type : Byte) (L R : ℤ) : Prop :=
  ∀ i j, L ≤ i → i ≤ R → L ≤ j → j ≤ R → (stabs i).nType = type → (stabs j).nType = type →
    (stabs j).nValue.toNat ≠ (stabs i).nValue.toNat + 1

theorem SortedStabs.mono {L' R' : ℤ} (h : SortedStabs stabs type L R) (hL : L ≤ L') (hR : R' ≤ R) :
    SortedStabs stabs type L' R' := fun i j hi hij hj => h i j (hL.trans hi) hij (hj.trans hR)

theorem ApartStabs.mono {L' R' : ℤ} (h : ApartStabs stabs type L R) (hL : L ≤ L') (hR : R' ≤ R) :
    ApartStabs stabs type L' R' := fun i j hi hi' hj hj' =>
  h i j (hL.trans hi) (hi'.trans hR) (hL.trans hj) (hj'.trans hR)

/-- No entry of the type is at the last address there is, if that is the address looked for. -/
def NotLast (stabs : ℤ → Stab) (type : Byte) (addr : Word) (L R : ℤ) : Prop :=
  addr = 0xFFFFFFFF#32 → ∀ i, L ≤ i → i ≤ R → (stabs i).nType = type → (stabs i).nValue ≠ addr

/-- What follows the last entry at or below the address, up to the next one of the type, is
what the search returns. -/
theorem Segment.eq_right {addr : Word} {f e right : ℤ} (hs : SortedStabs stabs type L R)
    (hf : IsGreatest (atOrBelow stabs type addr L R) f) (he : Segment stabs type R f e)
    (hright : IsLeast (above stabs type addr L R) (right + 1) ∨
      above stabs type addr L R = ∅ ∧ right = R) : right = e := by
  obtain ⟨⟨hLf, hfR, hftype, hfv⟩, hmax⟩ := hf
  have hstart := he.start
  have hstop := he.stop
  -- behind `f` an entry of the type is above the address
  have habove : ∀ j, f < j → j ≤ R → (stabs j).nType = type → j ∈ above stabs type addr L R := by
    intro j hfj hjR htype
    refine ⟨by omega, hjR, htype, ?_⟩
    by_contra hle
    have := hmax ⟨by omega, hjR, htype, BitVec.not_lt.mp hle⟩
    omega
  obtain ⟨⟨hLr, hrR, hrtype, hrv⟩, hmin⟩ | ⟨hempty, rfl⟩ := hright
  · have hfr : f < right + 1 := by
      by_contra hle
      have hsort := BitVec.le_def.mp (hs (right + 1) f hLr (by omega) hfR hrtype hftype)
      have := BitVec.lt_def.mp hrv
      have := BitVec.le_def.mp hfv
      omega
    obtain hlt | heq | hgt := lt_trichotomy right e
    · exact absurd hrtype (he.inside (right + 1) hfr (by omega))
    · exact heq
    · obtain hend | hnext := he.next
      · omega
      · have := hmin (habove (e + 1) (by omega) (by omega) hnext)
        omega
  · obtain hend | hnext := he.next
    · exact hend.symm
    · by_contra hne
      have hmem := habove (e + 1) (by omega) (by omega) hnext
      rw [hempty] at hmem
      exact hmem

/-- A segment has an end. -/
theorem exists_segment {i : ℤ} (h : i ≤ R) : ∃ e, Segment stabs type R i e := by
  induction hn : (R - i).toNat generalizing R with
  | zero =>
    obtain rfl : i = R := by omega
    exact ⟨i, le_rfl, le_rfl, fun j hij hji => by omega, .inl rfl⟩
  | succ n ih =>
    obtain ⟨e, he⟩ := ih (R := R - 1) (by omega) (by omega)
    have hstart := he.start
    have hstop := he.stop
    obtain hend | hnext := he.next
    · by_cases htype : (stabs R).nType = type
      · exact ⟨e, hstart, by omega, he.inside, .inr (by rw [hend, sub_add_cancel]; exact htype)⟩
      · refine ⟨R, h, le_rfl, fun j hij hjR => ?_, .inl rfl⟩
        obtain rfl | hlt := eq_or_lt_of_le hjR
        · exact htype
        · exact he.inside j hij (by omega)
    · exact ⟨e, hstart, by omega, he.inside, .inr hnext⟩

/-- In a table with gaps the search returns a segment: the last entry at or below the address,
and the end of what belongs to it. -/
theorem stabBinsearch_segment {addr : Word} {f e : ℤ} (h : StabsAt mem t stabs L R) (h0 : 0 ≤ L)
    (hR : R < 2 ^ 30) (hLR : L ≤ R)
    (hs : SortedStabs stabs type L R) (hapart : ApartStabs stabs type L R)
    (hlast : NotLast stabs type addr L R) (hf : IsGreatest (atOrBelow stabs type addr L R) f)
    (he : Segment stabs type R f e) :
    (Debug.stabBinsearch mem t L R type addr).result = .ok (f, e) := by
  -- no `int` of the search overflows
  have hint : ∀ x, StabReader.Computed L R x → (cInt .overflow x : Debug ℤ) = pure x := by
    intro x hx
    rw [StabReader.Computed] at hx
    exact if_pos ⟨by omega, by omega⟩
  have hover : ∀ k, ¬Overtakes (typed stabs type) addr.toNat L R k := by
    intro k hk
    obtain ⟨m, hLm, hmk, hkR, hmtype, hmv, hktype, hkv⟩ := hk.entries
    refine hapart m k hLm (by omega) (by omega) hkR hmtype hktype ?_
    rw [hkv, hmv]
  obtain ⟨left, right, hok, hleft, hright⟩ := searchTable_split h hint hLR hs ⟨f, hf.1⟩ hover hlast
  rw [Debug.stabBinsearch, hok, hleft.unique hf, he.eq_right hs hf hright]

/-! ### The loops around the searches -/

/-- The strings are in memory, and the last one ends. -/
structure StringsAt (mem : Memory) (t : UserStabData) : Prop where
  nonempty : t.stabstr < t.stabstrEnd
  mapped : ∀ a, (a - t.stabstr).toNat < t.stringSize.toNat → ∃ b, mem a = some b
  terminated : mem (t.stabstrEnd - 1#32) = some 0#8

/-- `strfind` returns for a string that ends. -/
theorem strfindLoop_ok {s : CString} {c : Byte} {fuel i n : ℕ} (hn : n < fuel)
    (hread : ∀ k ≤ n, ∃ b, (Debug.char mem (i + k) s).result = .ok b)
    (hend : (Debug.char mem (i + n) s).result = .ok 0#8) :
    ∃ k, (strfindLoop mem s c fuel i).result = .ok k := by
  induction fuel generalizing i n with
  | zero => exact absurd hn (Nat.not_lt_zero _)
  | succ fuel ih =>
    obtain ⟨b, hb⟩ := hread 0 (Nat.zero_le n)
    rw [Nat.add_zero] at hb
    rw [strfindLoop, bind_of_ok hb]
    by_cases hnul : b = 0#8
    · rw [if_pos hnul]
      exact ⟨i, rfl⟩
    by_cases hc : b = c
    · rw [if_neg hnul, if_pos hc]
      exact ⟨i, rfl⟩
    rw [if_neg hnul, if_neg hc]
    -- neither the terminator nor the character, so the string goes on
    cases n with
    | zero =>
      cases hb.symm.trans hend
      exact absurd rfl hnul
    | succ n =>
      refine ih (n := n) (by omega) (fun k hk => ?_) ?_
      · obtain ⟨b, hb⟩ := hread (k + 1) (by omega)
        exact ⟨b, by rw [show i + 1 + k = i + (k + 1) by omega]; exact hb⟩
      · rw [show i + 1 + n = i + (n + 1) by omega]
        exact hend

/-- A name in the string table ends before the table does. -/
theorem strfind_ok_arg (h : StringsAt mem t) {x : Word} (hx : x < t.stringSize) (c : Byte) :
    ∃ k, (strfind mem (.arg (t.stabstr + x)) c).result = .ok k := by
  have hsize : t.stringSize.toNat = t.stabstrEnd.toNat - t.stabstr.toNat := by
    have := BitVec.lt_def.mp h.nonempty
    rw [UserStabData.stringSize, BitVec.toNat_sub_of_le (BitVec.le_of_lt h.nonempty)]
  have hx' := BitVec.lt_def.mp hx
  have hlt := t.stringSize.isLt
  have hoff : ∀ k, x.toNat + k < t.stringSize.toNat →
      (t.stabstr + x + BitVec.ofNat 32 k - t.stabstr).toNat = x.toNat + k := by
    intro k hk
    have hcancel : t.stabstr + x + BitVec.ofNat 32 k - t.stabstr = x + BitVec.ofNat 32 k := by
      rw [BitVec.add_assoc, BitVec.add_comm, BitVec.add_sub_cancel]
    rw [hcancel, BitVec.toNat_add, BitVec.toNat_ofNat]
    omega
  refine strfindLoop_ok (n := t.stringSize.toNat - 1 - x.toNat) (by omega) (fun k hk => ?_) ?_
  · obtain ⟨b, hb⟩ := h.mapped (t.stabstr + x + BitVec.ofNat 32 (0 + k))
      (by rw [Nat.zero_add, hoff k (by omega)]; omega)
    exact ⟨b, by rw [Debug.char, stringByte_some hb]⟩
  · -- the last byte of the table
    have hlast : t.stabstr + x + BitVec.ofNat 32 (0 + (t.stringSize.toNat - 1 - x.toNat)) =
        t.stabstrEnd - 1#32 := by
      have hend := t.stabstrEnd.isLt
      have := BitVec.lt_def.mp h.nonempty
      apply BitVec.eq_of_toNat_eq
      rw [BitVec.toNat_add, BitVec.toNat_add, BitVec.toNat_ofNat, BitVec.toNat_sub,
        BitVec.toNat_ofNat]
      omega
    rw [Debug.char, hlast, stringByte_some h.terminated]

/-- So does the name that stands for an unknown one. -/
theorem strfind_ok_const (l : List Byte) (hl : l.length < 2 ^ 32) (c : Byte) :
    ∃ k, (strfind mem (.const l) c).result = .ok k := by
  refine strfindLoop_ok (n := l.length) (by omega) (fun k _ => ⟨_, rfl⟩) ?_
  have hnul : l.getD l.length 0#8 = 0#8 := by
    rw [List.getD_eq_getElem?_getD, List.getElem?_eq_none le_rfl, Option.getD_none]
  rw [Nat.zero_add, Debug.char, hnul]
  rfl

theorem findFile_ok {k : ℕ} {lline : ℤ} (h : StabsAt mem t stabs (lline - k + 1) lline) :
    ∃ l, (findFile mem t k lline).result = .ok l ∧ lline - k ≤ l ∧ l ≤ lline := by
  induction k generalizing lline with
  | zero => exact ⟨lline, rfl, by omega, le_rfl⟩
  | succ k ih =>
    have hat := h lline (by omega) le_rfl
    have hrest : StabsAt mem t stabs (lline - 1 - k + 1) (lline - 1) :=
      h.mono (by omega) (by omega)
    obtain ⟨l, hl, hlow, hup⟩ := ih hrest
    rw [findFile, bind_of_ok hat.type]
    split
    · exact ⟨lline, rfl, by omega, le_rfl⟩
    split
    · exact ⟨l, hl, by omega, by omega⟩
    · rw [bind_of_ok hat.value]
      split
      · exact ⟨l, hl, by omega, by omega⟩
      · exact ⟨lline, rfl, by omega, le_rfl⟩

theorem countArgs_ok {k : ℕ} {lline : ℤ} (narg : Word)
    (h : StabsAt mem t stabs lline (lline + k - 1)) :
    ∃ n, (countArgs mem t k lline narg).result = .ok n := by
  induction k generalizing lline narg with
  | zero => exact ⟨narg, rfl⟩
  | succ k ih =>
    rw [countArgs, bind_of_ok (h lline le_rfl (by omega)).type]
    split
    · exact ih _ (h.mono (by omega) (by omega))
    · exact ⟨narg, rfl⟩

/-! ### Well-formed tables -/

/-- A stab table as a compiler writes it: whole entries. The functions of a file are those between
its `N_SO` and the next one, and the lines of a function those between its `N_FUN` and the next
one. -/
structure WellFormedStabs (mem : Memory) (t : UserStabData) (stabs : ℤ → Stab) : Prop where
  whole : (sizeofStab : ℤ) ∣ (t.stabEnd - t.stabs).toInt
  entries : StabsAt mem t stabs 0 (t.count - 1)
  header : (stabs 0).nType ≠ nSo
  strings : StringsAt mem t
  files : SortedStabs stabs nSo 0 (t.count - 1)
  files_apart : ApartStabs stabs nSo 0 (t.count - 1)
  functions : SortedStabs stabs nFun 0 (t.count - 1)
  functions_apart : ApartStabs stabs nFun 0 (t.count - 1)
  lines {f e g e' : ℤ} : 0 ≤ f → (stabs f).nType = nSo → Segment stabs nSo (t.count - 1) f e →
    f ≤ g → (stabs g).nType = nFun → Segment stabs nFun e g e' →
    SortedStabs stabs nSline g e' ∧ ApartStabs stabs nSline g e' ∧
      ∃ i, IsLeast {i | g ≤ i ∧ i ≤ e' ∧ (stabs i).nType = nSline} i ∧ (stabs i).nValue = 0#32

theorem WellFormedStabs.last_lt (h : WellFormedStabs mem t stabs) : t.count - 1 < 2 ^ 30 := by
  obtain ⟨k, hk⟩ := h.whole
  have hsize := (toInt_isInt (t.stabEnd - t.stabs)).2
  rw [hk, sizeofStab] at hsize
  rw [UserStabData.count_of_whole hk]
  omega

/-- The stabs of an address. -/
structure Place where
  file : ℤ
  fileEnd : ℤ
  function : ℤ
  functionEnd : ℤ
  line : ℤ
  lineEnd : ℤ

/-- The file, the function and the line of `addr`: each the last one at or below it, with all
that belongs to it. -/
structure Located (stabs : ℤ → Stab) (last : ℤ) (addr : Word) (p : Place) : Prop where
  file : IsGreatest (atOrBelow stabs nSo addr 0 last) p.file
  fileEnd : Segment stabs nSo last p.file p.fileEnd
  function : IsGreatest (atOrBelow stabs nFun addr p.file p.fileEnd) p.function
  functionEnd : Segment stabs nFun p.fileEnd p.function p.functionEnd
  line : IsGreatest (atOrBelow stabs nSline (addr - (stabs p.function).nValue) p.function
    p.functionEnd) p.line
  lineEnd : Segment stabs nSline p.functionEnd p.line p.lineEnd

theorem exists_isGreatest {addr : Word} (h : (atOrBelow stabs type addr L R).Nonempty) :
    ∃ i, IsGreatest (atOrBelow stabs type addr L R) i := by
  obtain ⟨i, hi⟩ := h
  obtain ⟨m, hm, hmax⟩ := Int.exists_greatest_of_bdd ⟨R, fun j hj => hj.2.1⟩ ⟨i, hi⟩
  exact ⟨m, hm, hmax⟩

/-- An address at or behind the first function of its file has a line. -/
theorem WellFormedStabs.exists_located (h : WellFormedStabs mem t stabs) {addr : Word} {f e : ℤ}
    (hf : IsGreatest (atOrBelow stabs nSo addr 0 (t.count - 1)) f)
    (he : Segment stabs nSo (t.count - 1) f e) (hg : (atOrBelow stabs nFun addr f e).Nonempty) :
    ∃ p, Located stabs (t.count - 1) addr p ∧ p.file = f ∧ p.fileEnd = e := by
  obtain ⟨g, hg⟩ := exists_isGreatest hg
  obtain ⟨hf0, hfn, hftype, -⟩ := hf.1
  obtain ⟨hfg, hge, hgtype, -⟩ := hg.1
  obtain ⟨e', he'⟩ : ∃ e', Segment stabs nFun e g e' := exists_segment hge
  obtain ⟨-, -, i, ⟨⟨hgi, hie, hitype⟩, -⟩, hi⟩ := h.lines hf0 hftype he hfg hgtype he'
  have hline : (atOrBelow stabs nSline (addr - (stabs g).nValue) g e').Nonempty :=
    ⟨i, hgi, hie, hitype, by rw [hi]; exact BitVec.le_def.mpr (Nat.zero_le _)⟩
  obtain ⟨l, hl⟩ := exists_isGreatest hline
  obtain ⟨r, hr⟩ : ∃ r, Segment stabs nSline e' l r := exists_segment hl.1.2.1
  exact ⟨⟨f, e, g, e', l, r⟩, ⟨hf, he, hg, he', hl, hr⟩, rfl, rfl⟩

/-! ### `debuginfo_eip` -/

/-- No file, function or line is at the last address there is, where the search would go on
with address 0. -/
structure NoneLast (stabs : ℤ → Stab) (last : ℤ) (addr : Word) (p : Place) : Prop where
  file : NotLast stabs nSo addr 0 last
  function : NotLast stabs nFun addr p.file p.fileEnd
  line : NotLast stabs nSline (addr - (stabs p.function).nValue) p.function p.functionEnd

theorem findFunction_ok (lfile rfile : ℤ) {lfun rfun : ℤ} (addr : Word) (info : Eipdebuginfo)
    (h : StabAt mem t lfun (stabs lfun)) (hle : lfun ≤ rfun) :
    ∃ name, (findFunction mem t lfile rfile lfun rfun addr info).result =
        .ok ({ info with eipFnName := name, eipFnAddr := (stabs lfun).nValue },
          addr - (stabs lfun).nValue, lfun, rfun) ∧
      (name = info.eipFnName ∨ ∃ x, x < t.stringSize ∧ name = .arg (t.stabstr + x)) := by
  rw [findFunction, if_pos hle, bind_of_ok h.strx, bind_of_ok h.value]
  refine ⟨_, rfl, ?_⟩
  split
  · next hlt => exact .inr ⟨_, hlt, rfl⟩
  · exact .inl rfl

section Search

variable {addr : Word} {p : Place} (h : WellFormedStabs mem t stabs)
  (hp : Located stabs (t.count - 1) addr p) (hlast : NoneLast stabs (t.count - 1) addr p)
include h hp hlast

/-- The search in the file finds the function. -/
theorem stabBinsearch_function : (Debug.stabBinsearch mem t p.file p.fileEnd nFun addr).result =
    .ok (p.function, p.functionEnd) := by
  obtain ⟨hf0, -, -, -⟩ := hp.file.1
  have hfe := hp.fileEnd.stop
  exact stabBinsearch_segment (h.entries.mono hf0 hfe) hf0 (hfe.trans_lt h.last_lt)
    hp.fileEnd.start (h.functions.mono hf0 hfe)
    (h.functions_apart.mono hf0 hfe) hlast.function hp.function hp.functionEnd

/-- The search in the function finds the line. -/
theorem stabBinsearch_line : (Debug.stabBinsearch mem t p.function p.functionEnd nSline
    (addr - (stabs p.function).nValue)).result = .ok (p.line, p.lineEnd) := by
  obtain ⟨hf0, -, hftype, -⟩ := hp.file.1
  obtain ⟨hfg, -, hgtype, -⟩ := hp.function.1
  have hfe := hp.fileEnd.stop
  have hee := hp.functionEnd.stop
  obtain ⟨hlines, hapart, -⟩ := h.lines hf0 hftype hp.fileEnd hfg hgtype hp.functionEnd
  have hlast' := h.last_lt
  exact stabBinsearch_segment (h.entries.mono (by omega) (by omega)) (by omega) (by omega)
    hp.functionEnd.start hlines
    hapart hlast.line hp.line hp.lineEnd

end Search

/-- The end of `debuginfo_eip`: counting the arguments touches neither the address of the function
nor the line. -/
theorem describe_narg {lfun rfun : ℤ} {info : Eipdebuginfo} {narg : Word}
    (hnarg : (countArgs mem t (rfun - (lfun + 1)).toNat (lfun + 1) info.eipFnNarg).result =
      .ok narg) :
    ∃ info', (if lfun < rfun then do
        let narg ← countArgs mem t (rfun - (lfun + 1)).toNat (lfun + 1) info.eipFnNarg
        pure ((0 : ℤ), { info with eipFnNarg := narg })
      else do
        let narg ← pure info.eipFnNarg
        pure (0, { info with eipFnNarg := narg }) : Debug (ℤ × Eipdebuginfo)).result =
        .ok (0, info') ∧ info'.eipFnAddr = info.eipFnAddr ∧ info'.eipLine = info.eipLine := by
  split
  · rw [bind_of_ok hnarg]
    exact ⟨_, rfl, rfl, rfl⟩
  · exact ⟨_, rfl, rfl, rfl⟩

/-- In a well-formed table the line is taken from the end of the line's stabs. -/
theorem describe_ok (h : WellFormedStabs mem t stabs) {addr : Word} {p : Place}
    (hp : Located stabs (t.count - 1) addr p) (hlast : NoneLast stabs (t.count - 1) addr p)
    (info : Eipdebuginfo) (hname : info.eipFnName = .const (text "<unknown>")) :
    ∃ info', (describe mem t p.file p.fileEnd addr info).result = .ok (0, info') ∧
      info'.eipFnAddr = (stabs p.function).nValue ∧
      info'.eipLine = (stabs p.lineEnd).nDesc.setWidth 32 := by
  obtain ⟨hf0, hfn, -, -⟩ := hp.file.1
  obtain ⟨hfg, hge, -, -⟩ := hp.function.1
  obtain ⟨hgl, hle, -, -⟩ := hp.line.1
  have hfe := hp.fileEnd.stop
  have hge' := hp.functionEnd.start
  have hee' := hp.functionEnd.stop
  have hlr := hp.lineEnd.start
  have hre := hp.lineEnd.stop
  obtain ⟨name, hfun, hcases⟩ := findFunction_ok p.file p.fileEnd addr info
    (h.entries p.function (by omega) (by omega)) hge'
  obtain ⟨len, hlen⟩ : ∃ k, (strfind mem name (chr ':')).result = .ok k := by
    obtain rfl | ⟨x, hx, rfl⟩ := hcases
    · rw [hname]
      exact strfind_ok_const _ (by decide) _
    · exact strfind_ok_arg h.strings hx _
  have hscan : StabsAt mem t stabs (p.line - (p.line + 1 - p.file).toNat + 1) p.line :=
    h.entries.mono (by omega) (by omega)
  obtain ⟨l, hl, hlow, hup⟩ := findFile_ok hscan
  have hargs : StabsAt mem t stabs (p.function + 1)
      (p.function + 1 + (p.functionEnd - (p.function + 1)).toNat - 1) := by
    intro i hi hi'
    exact h.entries i (by omega) (by omega)
  obtain ⟨narg, hnarg⟩ := countArgs_ok info.eipFnNarg hargs
  -- the statements of the code, one after the other
  rw [describe, bind_of_ok (stabBinsearch_function h hp hlast)]
  dsimp only
  rw [bind_of_ok hfun]
  dsimp only
  rw [bind_of_ok hlen, bind_of_ok (stabBinsearch_line h hp hlast)]
  dsimp only
  rw [if_neg (by omega), bind_of_ok (h.entries p.lineEnd (by omega) (by omega)).desc,
    bind_of_ok hl]
  split
  · next hfile =>
    rw [bind_of_ok (h.entries l (by omega) (by omega)).strx]
    split
    · exact describe_narg hnarg
    · exact describe_narg hnarg
  · exact describe_narg hnarg

theorem searchTables_ok (h : WellFormedStabs mem t stabs) {addr : Word} {p : Place}
    (hp : Located stabs (t.count - 1) addr p) (hlast : NoneLast stabs (t.count - 1) addr p)
    (info : Eipdebuginfo) (hname : info.eipFnName = .const (text "<unknown>")) :
    ∃ info', (searchTables mem t addr info).result = .ok (0, info') ∧
      info'.eipFnAddr = (stabs p.function).nValue ∧
      info'.eipLine = (stabs p.lineEnd).nDesc.setWidth 32 := by
  obtain ⟨hf0, hfn, hftype, -⟩ := hp.file.1
  -- the header is not a file
  have hfile : p.file ≠ 0 := by
    intro h0
    rw [h0] at hftype
    exact h.header hftype
  have hsearch : (Debug.stabBinsearch mem t 0 (t.count - 1) nSo addr).result =
      .ok (p.file, p.fileEnd) :=
    stabBinsearch_segment h.entries le_rfl h.last_lt (by omega) h.files h.files_apart hlast.file
      hp.file hp.fileEnd
  obtain ⟨info', hinfo', hfun, hline⟩ := describe_ok h hp hlast info hname
  refine ⟨info', ?_, hfun, hline⟩
  rw [searchTables, if_neg (BitVec.not_le.mpr h.strings.nonempty),
    stringByte_some h.strings.terminated, bind_of_ok rfl, if_neg (not_not.mpr rfl),
    bind_of_ok hsearch]
  dsimp only
  rw [if_neg hfile]
  exact hinfo'

/-- `debuginfo_eip` returns 0, with the function of the address and with its line. -/
def RightLine (B : Boot) (linked : UserStabData) (cpu : ℕ) (addr : Word) (σ : State)
    (function line : Stab) : Prop :=
  ∃ info, (debuginfoEip B linked cpu addr σ).result = .ok (0, info, σ) ∧
    info.eipFnAddr = function.nValue ∧ info.eipLine = line.nDesc.setWidth 32

/-- In a well-formed table `debuginfo_eip` finds the file and the function of the address. The
line it reports is right exactly if the last stab before the next line has the `n_desc` of
the line. -/
theorem debuginfoEip_line_iff (B : Boot) (linked : UserStabData) (cpu : ℕ) {addr : Word}
    {σ : State} {stabs : ℤ → Stab} (hwf : WellFormedStabs (cpuMemory σ cpu) linked stabs)
    (haddr : ulim ≤ addr) {f e : ℤ}
    (hfile : IsGreatest (atOrBelow stabs nSo addr 0 (linked.count - 1)) f)
    (hfileEnd : Segment stabs nSo (linked.count - 1) f e)
    (hfun : (atOrBelow stabs nFun addr f e).Nonempty) :
    ∃ p, Located stabs (linked.count - 1) addr p ∧
      (NoneLast stabs (linked.count - 1) addr p →
        (RightLine B linked cpu addr σ (stabs p.function) (stabs p.line) ↔
          (stabs p.lineEnd).nDesc = (stabs p.line).nDesc)) := by
  obtain ⟨p, hp, rfl, rfl⟩ := hwf.exists_located hfile hfileEnd hfun
  refine ⟨p, hp, fun hlast => ?_⟩
  obtain ⟨info, hinfo, hfn, hline⟩ := searchTables_ok hwf hp hlast (unknownInfo addr) rfl
  have hresult : (debuginfoEip B linked cpu addr σ).result = .ok (0, info, σ) := by
    rw [debuginfoEip, if_pos haddr, bind_of_ok hinfo]
    rfl
  constructor
  · rintro ⟨info', hinfo', -, hline'⟩
    cases hresult.symm.trans hinfo'
    -- both line numbers have 16 bits, so nothing is lost by widening them
    have heq := congrArg BitVec.toNat (hline.symm.trans hline')
    have hlt := (stabs p.lineEnd).nDesc.isLt
    have hlt' := (stabs p.line).nDesc.isLt
    apply BitVec.eq_of_toNat_eq
    rw [BitVec.toNat_setWidth, BitVec.toNat_setWidth] at heq
    omega
  · intro hdesc
    exact ⟨info, hresult, hfn, by rw [hline, hdesc]⟩

/-- A file with one function of two lines, and a stab for a block behind the second line. -/
def sixStabs (i : ℤ) : Stab :=
  [⟨1#32, 0#8, 5#16, 4#32⟩, ⟨1#32, nSo, 0#16, 0xF0100000#32⟩, ⟨1#32, nFun, 0#16, 0xF0100000#32⟩,
    ⟨0#32, nSline, 5#16, 0#32⟩, ⟨0#32, nSline, 6#16, 4#32⟩,
    ⟨0#32, 0xC0#8, 0#16, 0#32⟩].getD i.toNat ⟨0#32, 0#8, 0#16, 0#32⟩

/-- The words of a `struct Stab`. -/
def Stab.words (s : Stab) : List Word :=
  [s.nStrx, s.nType.setWidth 32 ||| s.nDesc.setWidth 32 <<< 16, s.nValue]

/-- The processor runs on a directory that maps the page with the stabs and, behind them,
their strings. -/
def stabState : State :=
  { smallMemory with
    mem := fun f i =>
      if f = 512 then if i = 0x3C0 then 0x201003#32 else 0#32
      else if f = 513 then if i = 0x110 then 0x202003#32 else 0#32
      else if f = 514 then
        ((sixStabs 0).words ++ (sixStabs 1).words ++ (sixStabs 2).words ++ (sixStabs 3).words ++
          (sixStabs 4).words ++ (sixStabs 5).words ++ [0x00006600#32]).getD i 0#32
      else 0#32
    cpus := fun _ => { cr3 := 0x200000#32 } }

/-- Where they are. -/
def sixStabData : UserStabData := ⟨0xF0110000#32, 0xF0110048#32, 0xF0110048#32, 0xF011004C#32⟩

theorem sixStabs_types {i : ℤ} (hi : 0 ≤ i) (hi5 : i ≤ 5) :
    ((sixStabs i).nType = nSo → i = 1) ∧ ((sixStabs i).nType = nFun → i = 2) ∧
      ((sixStabs i).nType = nSline → i = 3 ∨ i = 4) := by
  obtain rfl | rfl | rfl | rfl | rfl | rfl :
    i = 0 ∨ i = 1 ∨ i = 2 ∨ i = 3 ∨ i = 4 ∨ i = 5 := by omega
  all_goals decide

theorem sixStabs_at : StabsAt (cpuMemory stabState 0) sixStabData sixStabs 0 5 := by
  intro i hi hi5
  obtain rfl | rfl | rfl | rfl | rfl | rfl :
    i = 0 ∨ i = 1 ∨ i = 2 ∨ i = 3 ∨ i = 4 ∨ i = 5 := by omega
  all_goals exact ⟨rfl, rfl, rfl, rfl⟩

theorem sixStabs_strings : StringsAt (cpuMemory stabState 0) sixStabData where
  nonempty := by decide
  mapped a ha := by
    have hsize : sixStabData.stringSize.toNat = 4 := rfl
    obtain ⟨k, hk, rfl⟩ : ∃ k < 4, a = 0xF0110048#32 + BitVec.ofNat 32 k := by
      refine ⟨(a - 0xF0110048#32).toNat, hsize ▸ ha, ?_⟩
      rw [BitVec.ofNat_toNat, BitVec.setWidth_eq, BitVec.add_comm, BitVec.sub_add_cancel]
    obtain rfl | rfl | rfl | rfl : k = 0 ∨ k = 1 ∨ k = 2 ∨ k = 3 := by omega
    all_goals exact ⟨_, rfl⟩
  terminated := rfl

theorem sixStabs_wellFormed : WellFormedStabs (cpuMemory stabState 0) sixStabData sixStabs where
  whole := by decide
  entries := sixStabs_at
  header := by decide
  strings := sixStabs_strings
  files i j hi hij hj hti htj := by
    obtain rfl := (sixStabs_types hi (hij.trans hj)).1 hti
    obtain rfl := (sixStabs_types (hi.trans hij) hj).1 htj
    decide
  files_apart i j hi hi' hj hj' hti htj := by
    obtain rfl := (sixStabs_types hi hi').1 hti
    obtain rfl := (sixStabs_types hj hj').1 htj
    decide
  functions i j hi hij hj hti htj := by
    obtain rfl := (sixStabs_types hi (hij.trans hj)).2.1 hti
    obtain rfl := (sixStabs_types (hi.trans hij) hj).2.1 htj
    decide
  functions_apart i j hi hi' hj hj' hti htj := by
    obtain rfl := (sixStabs_types hi hi').2.1 hti
    obtain rfl := (sixStabs_types hj hj').2.1 htj
    decide
  lines {f e g e'} hf htf he hfg htg he' := by
    have hcount : sixStabData.count - 1 = 5 := rfl
    rw [hcount] at he
    have hfe := he.start
    have he5 := he.stop
    have hge := he'.start
    have hee := he'.stop
    obtain rfl := (sixStabs_types hf (by omega)).1 htf
    obtain rfl := (sixStabs_types (i := g) (by omega) (by omega)).2.1 htg
    -- neither of them has a next one
    obtain rfl : e = 5 := by
      obtain h | hnext := he.next
      · exact h
      · by_contra hne
        have := (sixStabs_types (i := e + 1) (by omega) (by omega)).1 hnext
        omega
    obtain rfl : e' = 5 := by
      obtain h | hnext := he'.next
      · exact h
      · by_contra hne
        have := (sixStabs_types (i := e' + 1) (by omega) (by omega)).2.1 hnext
        omega
    refine ⟨fun i j hi hij hj hti htj => ?_, fun i j hi hi' hj hj' hti htj => ?_, 3, ?_, rfl⟩
    · obtain rfl | rfl := (sixStabs_types (by omega) (by omega)).2.2 hti
      all_goals
        obtain rfl | rfl := (sixStabs_types (by omega) hj).2.2 htj
        all_goals revert hij; decide
    · obtain rfl | rfl := (sixStabs_types (by omega) hi').2.2 hti
      all_goals
        obtain rfl | rfl := (sixStabs_types (by omega) hj').2.2 htj
        all_goals decide
    · refine ⟨⟨by decide, by decide, by decide⟩, fun i ⟨hi, hi5, hti⟩ => ?_⟩
      obtain rfl | rfl := (sixStabs_types (by omega) hi5).2.2 hti
      all_goals decide

/-- The only file of the table, for an address in it. -/
theorem sixStabs_file {addr : Word} (h : 0xF0100000#32 ≤ addr) :
    IsGreatest (atOrBelow sixStabs nSo addr 0 5) 1 ∧ Segment sixStabs nSo 5 1 5 ∧
      (atOrBelow sixStabs nFun addr 1 5).Nonempty := by
  refine ⟨⟨⟨by decide, by decide, by decide, h⟩, fun i ⟨hi, hi5, hti, _⟩ => ?_⟩,
    ⟨by decide, le_rfl, fun j hj hj5 htj => ?_, .inl rfl⟩, 2, by decide, by decide, by decide, h⟩
  · exact ((sixStabs_types hi hi5).1 hti).le
  · have := (sixStabs_types (by omega) hj5).1 htj
    omega

/-- The stabs of the second line: from its own to the one for the block. -/
def secondLine : Place := ⟨1, 5, 2, 5, 4, 5⟩

theorem secondLine_located : Located sixStabs 5 0xF0100006#32 secondLine := by
  obtain ⟨hfile, hend, -⟩ := sixStabs_file (show 0xF0100000#32 ≤ 0xF0100006#32 by decide)
  refine ⟨hfile, hend, ⟨⟨by decide, by decide, by decide, by decide⟩, ?_⟩,
    ⟨by decide, le_rfl, ?_, .inl rfl⟩, ⟨⟨by decide, by decide, by decide, by decide⟩, ?_⟩,
    ⟨by decide, le_rfl, ?_, .inl rfl⟩⟩
  · rintro i ⟨hi, hi5, hti, -⟩
    exact ((sixStabs_types (Int.le_trans (by decide) hi) hi5).2.1 hti).le
  · intro j (hj : 2 < j) hj5 htj
    have := (sixStabs_types (by omega) hj5).2.1 htj
    omega
  · rintro i ⟨hi, hi5, hti, -⟩
    obtain rfl | rfl := (sixStabs_types (Int.le_trans (by decide) hi) hi5).2.2 hti
    all_goals decide
  · intro j (hj : 4 < j) hj5 htj
    have := (sixStabs_types (by omega) hj5).2.2 htj
    omega

/-- On the second line `debuginfo_eip` reports line 0, the `n_desc` of the block. -/
theorem debuginfoEip_line_of_block :
    WellFormedStabs (cpuMemory stabState 0) sixStabData sixStabs ∧ ulim ≤ 0xF0100006#32 ∧
      Located sixStabs (sixStabData.count - 1) 0xF0100006#32 secondLine ∧
      ¬RightLine smallMachine sixStabData 0 0xF0100006#32 stabState
        (sixStabs secondLine.function) (sixStabs secondLine.line) := by
  refine ⟨sixStabs_wellFormed, by decide, secondLine_located, ?_⟩
  rintro ⟨info, hinfo, -, hline⟩
  have hzero : ((debuginfoEip smallMachine sixStabData 0 0xF0100006#32 stabState).result.map
      fun u => u.2.1.eipLine) = .ok 0#32 := rfl
  rw [hinfo] at hzero
  exact absurd (hline.symm.trans (Except.ok.inj hzero)) (by decide)

theorem debuginfoEip_line_sixStabs :
    ∃ p, Located sixStabs 5 0xF0100002#32 p ∧
      RightLine smallMachine sixStabData 0 0xF0100002#32 stabState (sixStabs p.function)
        (sixStabs p.line) := by
  obtain ⟨hfile, hend, hfun⟩ := sixStabs_file (show 0xF0100000#32 ≤ 0xF0100002#32 by decide)
  obtain ⟨p, hp, hiff⟩ := debuginfoEip_line_iff smallMachine sixStabData 0 sixStabs_wellFormed
    (by decide) hfile hend hfun
  have hcount : sixStabData.count - 1 = 5 := rfl
  rw [hcount] at hp hiff
  have hfile' : p.file = 1 := hp.file.unique hfile
  have hstop := hp.fileEnd.stop
  have hstop' := hp.functionEnd.stop
  have hstart := hp.lineEnd.start
  have hfun' : p.function = 2 := by
    obtain ⟨hfg, hge, htg, -⟩ := hp.function.1
    exact (sixStabs_types (by omega) (by omega)).2.1 htg
  -- the second line is behind the address
  have hline' : p.line = 3 := by
    obtain ⟨hgl, hle, htl, hv⟩ := hp.line.1
    obtain h | h := (sixStabs_types (by omega) (by omega)).2.2 htl
    · exact h
    · rw [h, hfun'] at hv
      exact absurd hv (by decide)
  have hlineEnd : p.lineEnd = 3 := by
    by_contra hne
    exact hp.lineEnd.inside 4 (by omega) (by omega) (by decide)
  refine ⟨p, hp, (hiff ⟨?_, ?_, ?_⟩).mpr (by rw [hlineEnd, hline'])⟩
  · exact fun h => absurd h (by decide)
  · exact fun h => absurd h (by decide)
  · rw [hfun']
    exact fun h => absurd h (by decide)

end Jos
