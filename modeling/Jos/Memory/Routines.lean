import Jos.Lib.StringAsm
import Jos.Library.Copy

/-!
# The memory routines

The two versions of `memset` and of `memmove` in `lib/string.c` leave the same memory:
`asm_routines_eq`. Each path of the assembly version, upwards or downwards and by words or by
bytes, is a copy block by block (`rep_up` and `rep_down`), and so are the loops of the version
in C; so what they do follows from `copyUp_eq` and `copyDown_eq`.
-/

namespace Jos

open StringCpu

section Bytes

variable {m : ByteMem} {d s a w : Word}

theorem update_eq_copied (m : ByteMem) (d s : Word) :
    Function.update m d (m s) = copied m d s 1 := by
  rw [update_eq_stored, copied, loaded, List.range_one, List.map_singleton, BitVec.add_zero]

theorem store32_eq_stored (m : ByteMem) (a w : Word) :
    store32 m a w = stored m a ((List.range 4).map fun k => (w >>> (8 * k)).setWidth 8) := by
  funext x
  rw [store32, stored]
  split_ifs with h
  · rw [List.getD_eq_getElem?_getD, List.getElem?_map, List.getElem?_range h]
    rfl
  · rw [List.getD_eq_default _ _ (by simpa using h)]

/-- A byte of a word that was read. -/
theorem load32_byte (m : ByteMem) (a : Word) {k : ℕ} (hk : k < 4) :
    (load32 m a >>> (8 * k)).setWidth 8 = m (a + BitVec.ofNat 32 k) := by
  rw [load32_bytes]
  ext i hi
  simp only [BitVec.getElem_setWidth, BitVec.getLsbD_ushiftRight, BitVec.getLsbD_append]
  rw [← BitVec.getLsbD_eq_getElem hi]
  -- bit `8 * k + i` of the word is in byte `k`
  obtain rfl | rfl | rfl | rfl : k = 0 ∨ k = 1 ∨ k = 2 ∨ k = 3 := by omega
  all_goals split_ifs <;> first | omega | (congr 1; omega)

theorem store32_load32 (m : ByteMem) (d s : Word) :
    store32 m d (load32 m s) = copied m d s 4 := by
  rw [store32_eq_stored, copied, loaded]
  congr 1
  exact List.map_congr_left fun k hk => load32_byte m s (List.mem_range.mp hk)

theorem low_byte_bit (c : Word) (j : ℕ) :
    (c &&& 0xff#32).getLsbD j = (decide (j < 8) && c.getLsbD j) := by
  have hmask : 0xff#32 = (BitVec.allOnes 8).setWidth 32 := by decide
  rw [BitVec.getLsbD_and, hmask, BitVec.getLsbD_setWidth, BitVec.getLsbD_allOnes, Bool.and_comm]
  by_cases hj : j < 8
  · simp [hj, show j < 32 by omega]
  · simp [hj]

/-- The four bytes of the word that `memset` makes are the same. -/
theorem memset_word (c : Word) {k : ℕ} (hk : k < 4) :
    (((c &&& 0xff#32) <<< 24 ||| (c &&& 0xff#32) <<< 16 ||| (c &&& 0xff#32) <<< 8 |||
      (c &&& 0xff#32)) >>> (8 * k)).setWidth 8 = c.setWidth 8 := by
  ext i hi
  rw [BitVec.getElem_setWidth, BitVec.getElem_setWidth, BitVec.getLsbD_ushiftRight]
  simp only [BitVec.getLsbD_or, BitVec.getLsbD_shiftLeft, low_byte_bit]
  -- only one of the shifted bytes has bits where byte `k` is
  obtain rfl | rfl | rfl | rfl : k = 0 ∨ k = 1 ∨ k = 2 ∨ k = 3 := by omega
  all_goals
    simp (disch := omega) only [decide_eq_true, decide_eq_false, Bool.and_false, Bool.false_and,
      Bool.not_true, Bool.not_false, Bool.true_and, Bool.false_or, Bool.or_false, Nat.mul_zero,
      Nat.mul_one, Nat.reduceMul, Nat.zero_add, Nat.add_sub_cancel_left]

end Bytes

/-! ### `rep` -/

section Rep

variable {insn : StringCpu → StringCpu} {cpu : StringCpu} {b : Byte} {k : ℕ}

/-- One round of `rep`. -/
def repRound (insn : StringCpu → StringCpu) (cpu : StringCpu) : StringCpu :=
  { insn cpu with ecx := cpu.ecx - 1#32 }

/-- An instruction that fills `k` bytes with `b`, with the direction flag clear and `w` in
`eax`. -/
def Fills (k : ℕ) (b : Byte) (w : Word) (insn : StringCpu → StringCpu) : Prop :=
  ∀ cpu, cpu.df = false → cpu.eax = w → insn cpu =
    { cpu with
      mem := stored cpu.mem cpu.edi (List.replicate k b)
      edi := cpu.edi + BitVec.ofNat 32 k }

/-- An instruction that copies `k` bytes, with the direction flag clear. -/
def MovesUp (k : ℕ) (insn : StringCpu → StringCpu) : Prop :=
  ∀ cpu, cpu.df = false → insn cpu =
    { cpu with
      mem := copied cpu.mem cpu.edi cpu.esi k
      edi := cpu.edi + BitVec.ofNat 32 k
      esi := cpu.esi + BitVec.ofNat 32 k }

/-- An instruction that copies `k` bytes, with the direction flag set. -/
def MovesDown (k : ℕ) (insn : StringCpu → StringCpu) : Prop :=
  ∀ cpu, cpu.df = true → insn cpu =
    { cpu with
      mem := copied cpu.mem cpu.edi cpu.esi k
      edi := cpu.edi - BitVec.ofNat 32 k
      esi := cpu.esi - BitVec.ofNat 32 k }

theorem advance_up (hdf : cpu.df = false) (size p : Word) : cpu.advance size p = p + size := by
  rw [advance, hdf]
  rfl

theorem advance_down (hdf : cpu.df = true) (size p : Word) : cpu.advance size p = p - size := by
  rw [advance, hdf]
  rfl

theorem movsb_up : MovesUp 1 movsb := by
  intro cpu hdf
  rw [movsb, advance_up hdf, advance_up hdf, update_eq_copied]

theorem movsl_up : MovesUp 4 movsl := by
  intro cpu hdf
  rw [movsl, advance_up hdf, advance_up hdf, store32_load32]

theorem movsb_down : MovesDown 1 movsb := by
  intro cpu hdf
  rw [movsb, advance_down hdf, advance_down hdf, update_eq_copied]

theorem movsl_down : MovesDown 4 movsl := by
  intro cpu hdf
  rw [movsl, advance_down hdf, advance_down hdf, store32_load32]

/-- A run of an instruction that copies upwards. -/
theorem rep_up (h : MovesUp k insn) (hdf : cpu.df = false) :
    (rep insn cpu).mem = copyUp k cpu.ecx.toNat cpu.edi cpu.esi cpu.mem := by
  change ((repRound insn)^[cpu.ecx.toNat] cpu).mem = _
  generalize cpu.ecx.toNat = n
  induction n generalizing cpu with
  | zero => rfl
  | succ n ih =>
    rw [Function.iterate_succ_apply, repRound, h cpu hdf]
    exact ih hdf

/-- A run of an instruction that copies downwards; it is given where the last block starts. -/
theorem rep_down (h : MovesDown k insn) (hdf : cpu.df = true) :
    (rep insn cpu).mem = copyDown k cpu.ecx.toNat (cpu.edi + BitVec.ofNat 32 k)
      (cpu.esi + BitVec.ofNat 32 k) cpu.mem := by
  change ((repRound insn)^[cpu.ecx.toNat] cpu).mem = _
  generalize cpu.ecx.toNat = n
  induction n generalizing cpu with
  | zero => rfl
  | succ n ih =>
    rw [Function.iterate_succ_apply, repRound, h cpu hdf]
    refine Eq.trans (ih hdf) ?_
    simp only [copyDown, BitVec.add_sub_cancel, BitVec.sub_add_cancel]

/-- A run of an instruction that fills. -/
theorem rep_fill {w : Word} {len : ℕ} (h : Fills k b w insn) (hdf : cpu.df = false)
    (heax : cpu.eax = w) (hlen : k * cpu.ecx.toNat = len) (hfit : len ≤ 2 ^ 32) :
    (rep insn cpu).mem = stored cpu.mem cpu.edi (List.replicate len b) := by
  change ((repRound insn)^[cpu.ecx.toNat] cpu).mem = _
  rw [← hlen] at hfit ⊢
  generalize cpu.ecx.toNat = n at hfit
  clear hlen
  induction n generalizing cpu with
  | zero => rfl
  | succ n ih =>
    rw [Nat.mul_succ, Nat.add_comm] at hfit
    have hblock : List.replicate (k * (n + 1)) b =
        List.replicate k b ++ List.replicate (k * n) b := by
      rw [List.replicate_append_replicate, Nat.mul_succ, Nat.add_comm]
    rw [Function.iterate_succ_apply, repRound, h cpu hdf heax]
    refine Eq.trans (ih hdf heax (by omega)) ?_
    rw [hblock, ← stored_append]
    · rw [List.length_replicate]
    · rwa [List.length_replicate, List.length_replicate]

theorem rep_df (h : ∀ cpu, (insn cpu).df = cpu.df) : (rep insn cpu).df = cpu.df := by
  change ((repRound insn)^[cpu.ecx.toNat] cpu).df = _
  generalize cpu.ecx.toNat = n
  induction n generalizing cpu with
  | zero => rfl
  | succ n ih =>
    rw [Function.iterate_succ_apply, ih]
    exact h cpu

end Rep

theorem words_mul_four {n : Word} (h : n % 4#32 = 0#32) : 4 * (n / 4#32).toNat = n.toNat := by
  have hmod := congrArg BitVec.toNat h
  rw [BitVec.toNat_umod] at hmod
  rw [BitVec.toNat_udiv]
  exact Nat.mul_div_cancel' (Nat.dvd_of_mod_eq_zero hmod)

/-! ### `memset` -/

section Memset

variable {v c n : Word}

theorem stosb_fills (c : Word) : Fills 1 (c.setWidth 8) c stosb := by
  intro cpu hdf heax
  rw [stosb, advance_up hdf, update_eq_stored, heax]
  rfl

theorem stosl_fills (c : Word) :
    Fills 4 (c.setWidth 8) ((c &&& 0xff#32) <<< 24 ||| (c &&& 0xff#32) <<< 16 |||
      (c &&& 0xff#32) <<< 8 ||| (c &&& 0xff#32)) stosl := by
  intro cpu hdf heax
  rw [stosl, advance_up hdf, store32_eq_stored, heax]
  have hbytes := List.map_congr_left fun k hk => memset_word c (List.mem_range.mp hk)
  rw [hbytes]
  rfl

/-- The loop of the version in C. -/
theorem memsetLoop_eq (b : Byte) {k : ℕ} (hk : k ≤ 2 ^ 32) (p : Word) (m : ByteMem) :
    StringC.memsetLoop b k p m = stored m p (List.replicate k b) := by
  induction k generalizing p m with
  | zero =>
    rw [StringC.memsetLoop, if_neg (by omega)]
    rfl
  | succ k ih =>
    have hpred : ((k + 1 : ℕ) : ℤ) - 1 = k := by omega
    rw [StringC.memsetLoop, hpred, if_pos (Int.natCast_nonneg k), ih (by omega),
      update_eq_stored]
    refine stored_append (l := [b]) m p ?_
    rw [List.length_replicate, List.length_singleton]
    omega

/-- `memset` of the version in C. -/
theorem memsetC_eq (m : ByteMem) (hn : n.toNat < 2 ^ 31) :
    StringC.memset v c n m = (v, stored m v (List.replicate n.toNat (c.setWidth 8))) := by
  rw [StringC.memset, BitVec.toInt_eq_toNat_of_lt (by omega), memsetLoop_eq _ (by omega)]

/-- `memset` of the version for the x86. -/
theorem memsetAsm_eq (st : StringState) :
    (StringAsm.memset v c n st).1 = v ∧
      (StringAsm.memset v c n st).2.mem =
        stored st.mem v (List.replicate n.toNat (c.setWidth 8)) := by
  unfold StringAsm.memset
  split_ifs with hzero hword
  · rw [hzero]
    exact ⟨rfl, rfl⟩
  · exact ⟨rfl, rep_fill (stosl_fills c) rfl rfl (words_mul_four hword.2) n.isLt.le⟩
  · exact ⟨rfl, rep_fill (stosb_fills c) rfl rfl (Nat.one_mul _) n.isLt.le⟩

end Memset

/-! ### `memmove` -/

section Memmove

variable {dst src n : Word}

theorem memmoveUp_eq (k : ℕ) (d s : Word) (m : ByteMem) :
    StringC.memmoveUp k d s m = copyUp 1 k d s m := by
  induction k generalizing d s m with
  | zero => rfl
  | succ k ih =>
    rw [StringC.memmoveUp, ih, update_eq_copied]
    rfl

theorem memmoveDown_eq (k : ℕ) (d s : Word) (m : ByteMem) :
    StringC.memmoveDown k d s m = copyDown 1 k d s m := by
  induction k generalizing d s m with
  | zero => rfl
  | succ k ih =>
    rw [StringC.memmoveDown, ih, update_eq_copied]
    rfl

/-- A copy upwards, when the source is not below the destination or does not reach it. -/
theorem copyUp_all {k i : ℕ} (m : ByteMem) (hsrc : src.toNat + n.toNat ≤ 2 ^ 32)
    (hdst : dst.toNat + n.toNat ≤ 2 ^ 32) (hblocks : k * i = n.toNat)
    (hup : ¬ (src < dst ∧ src + n > dst)) :
    copyUp k i dst src m = copied m dst src n.toNat := by
  rw [← hblocks] at hsrc hdst ⊢
  refine copyUp_eq hsrc hdst ?_
  -- `s + n` does not wrap when the source starts below the destination
  by_contra hoverlap
  rw [not_or, not_le, not_le] at hoverlap
  refine hup ⟨hoverlap.1, ?_⟩
  rw [gt_iff_lt, BitVec.lt_def, BitVec.toNat_add_of_lt (by omega)]
  omega

/-- A copy downwards, when the source is below the destination. -/
theorem copyDown_all {k i : ℕ} (m : ByteMem) (hsrc : src.toNat + n.toNat ≤ 2 ^ 32)
    (hdst : dst.toNat + n.toNat ≤ 2 ^ 32) (hblocks : k * i = n.toNat) (hdown : src < dst) :
    copyDown k i (dst + n) (src + n) m = copied m dst src n.toNat := by
  have hn : n = BitVec.ofNat 32 (k * i) := by
    rw [hblocks, BitVec.ofNat_toNat, BitVec.setWidth_eq]
  rw [← hblocks] at hsrc hdst ⊢
  rw [hn]
  exact copyDown_eq hsrc hdst (BitVec.lt_def.mp hdown).le

/-- `memmove` of the version in C. -/
theorem memmoveC_eq (m : ByteMem) (hsrc : src.toNat + n.toNat ≤ 2 ^ 32)
    (hdst : dst.toNat + n.toNat ≤ 2 ^ 32) :
    StringC.memmove dst src n m = (dst, copied m dst src n.toNat) := by
  simp only [StringC.memmove]
  split_ifs with hdown
  · rw [memmoveDown_eq, copyDown_all m hsrc hdst (Nat.one_mul _) hdown.1]
  · rw [memmoveUp_eq, copyUp_all m hsrc hdst (Nat.one_mul _) hdown]

/-- `memmove` of the version for the x86. -/
theorem memmoveAsm_eq (st : StringState) (hsrc : src.toNat + n.toNat ≤ 2 ^ 32)
    (hdst : dst.toNat + n.toNat ≤ 2 ^ 32) :
    (StringAsm.memmove dst src n st).1 = dst ∧
      (StringAsm.memmove dst src n st).2.mem = copied st.mem dst src n.toNat := by
  unfold StringAsm.memmove
  by_cases hdown : src < dst ∧ src + n > dst
  · simp only [if_pos hdown]
    refine ⟨trivial, ?_⟩
    split_ifs with hword
    · -- `d-4` is where the last word starts, and `d` where it ends
      refine (rep_down movsl_down rfl).trans ?_
      simp only [std, BitVec.sub_add_cancel]
      exact copyDown_all st.mem hsrc hdst (words_mul_four hword.2.2) hdown.1
    · refine (rep_down movsb_down rfl).trans ?_
      simp only [std, BitVec.sub_add_cancel]
      exact copyDown_all st.mem hsrc hdst (Nat.one_mul _) hdown.1
  · simp only [if_neg hdown]
    refine ⟨trivial, ?_⟩
    split_ifs with hword
    · exact (rep_up movsl_up rfl).trans
        (copyUp_all st.mem hsrc hdst (words_mul_four hword.2.2) hdown)
    · exact (rep_up movsb_up rfl).trans (copyUp_all st.mem hsrc hdst (Nat.one_mul _) hdown)

/-- `memmove` leaves the direction flag clear. -/
theorem memmoveAsm_df (dst src n : Word) (st : StringState) :
    (StringAsm.memmove dst src n st).2.df = false := by
  simp only [StringAsm.memmove]
  split_ifs
  · rfl
  · rfl
  · exact rep_df fun _ => rfl
  · exact rep_df fun _ => rfl

end Memmove

/-- An address is in a range that does not wrap when its distance from the start is less than
the length. -/
theorem toNat_sub_lt_iff {a b n : Word} (h : b.toNat + n.toNat ≤ 2 ^ 32) :
    (a - b).toNat < n.toNat ↔ b.toNat ≤ a.toNat ∧ a.toNat < b.toNat + n.toNat := by
  have ha := a.isLt
  rw [BitVec.toNat_sub]
  omega

theorem stored_replicate (m : ByteMem) (a x : Word) (n : ℕ) (b : Byte) :
    stored m a (List.replicate n b) x = if (x - a).toNat < n then b else m x := by
  rw [stored, List.getD_eq_getElem?_getD, List.getElem?_replicate]
  split_ifs <;> rfl

/-- The versions of `memset` and of `memmove` leave the same memory. `memset` sets the bytes
of the range and no others, and `memmove` leaves in the destination what was in the source,
however the two overlap, and changes nothing else. -/
theorem asm_routines_eq (st : StringState) (v dst src c n : Word) (hn : n.toNat < 2 ^ 31)
    (hv : v.toNat + n.toNat ≤ 2 ^ 32) (hdst : dst.toNat + n.toNat ≤ 2 ^ 32)
    (hsrc : src.toNat + n.toNat ≤ 2 ^ 32) :
    (((StringAsm.memset v c n st).1, (StringAsm.memset v c n st).2.mem) =
        StringC.memset v c n st.mem ∧
      ∀ a : Word, (StringAsm.memset v c n st).2.mem a =
        if v.toNat ≤ a.toNat ∧ a.toNat < v.toNat + n.toNat then (c &&& 0xff#32).setWidth 8
        else st.mem a) ∧
    (((StringAsm.memmove dst src n st).1, (StringAsm.memmove dst src n st).2.mem) =
        StringC.memmove dst src n st.mem ∧
      ∀ a : Word, (StringAsm.memmove dst src n st).2.mem a =
        if dst.toNat ≤ a.toNat ∧ a.toNat < dst.toNat + n.toNat then st.mem (src + (a - dst))
        else st.mem a) := by
  -- `stosb` stores the low byte of `c` without masking it
  have hmask : (c &&& 0xff#32).setWidth 8 = c.setWidth 8 := by
    ext i hi
    rw [BitVec.getElem_setWidth, BitVec.getElem_setWidth, low_byte_bit, decide_eq_true hi,
      Bool.true_and]
  obtain ⟨hsetv, hset⟩ := memsetAsm_eq (v := v) (c := c) (n := n) st
  obtain ⟨hmovev, hmove⟩ := memmoveAsm_eq st hsrc hdst
  refine ⟨⟨?_, fun a => ?_⟩, ?_, fun a => ?_⟩
  · rw [memsetC_eq st.mem hn, hsetv, hset]
  · rw [hset, stored_replicate]
    simp only [toNat_sub_lt_iff hv, hmask]
  · rw [memmoveC_eq st.mem hsrc hdst, hmovev, hmove]
  · rw [hmove, copied_apply]
    simp only [toNat_sub_lt_iff hdst]

/-- Six bytes are moved up by two, and eight are set. -/
theorem asm_routines_eq_overlap :
    (StringAsm.memmove 0x1002#32 0x1000#32 6#32 ⟨fun a => a.setWidth 8, false⟩).2.mem 0x1006#32 =
        4#8 ∧
      (StringAsm.memset 0x1000#32 0x141#32 6#32 ⟨fun a => a.setWidth 8, true⟩).2.mem 0x1005#32 =
        0x41#8 := by
  have hmove := asm_routines_eq ⟨fun a => a.setWidth 8, false⟩ 0#32 0x1002#32 0x1000#32 0#32 6#32
    (by decide) (by decide) (by decide) (by decide)
  have hset := asm_routines_eq ⟨fun a => a.setWidth 8, true⟩ 0x1000#32 0#32 0#32 0x141#32 6#32
    (by decide) (by decide) (by decide) (by decide)
  exact ⟨hmove.2.2 0x1006#32, hset.1.2 0x1005#32⟩

end Jos
