import Jos.Library.Stored

/-!
# Copies in a memory of machine words

`copied m dst src n` is the memory `m` after the `n` values from `src` on have been copied to
`dst`, each of them as it was before the copy. A program copies block by block, and what it
has written it may then read. Upwards, with the lowest block first, it does not, unless the
source starts below the destination and reaches into it (`copyUp_eq`); downwards it does not
if the source starts below the destination (`copyDown_eq`). The size of a block does not
matter, as long as a block is read before it is written.
-/

namespace Jos

variable {w : ℕ} {β : Type*} {m : BitVec w → β} {a b x dst src : BitVec w} {i k n : ℕ}

/-! ### Reading a block -/

/-- The `n` values from address `a` on. -/
def loaded (m : BitVec w → β) (a : BitVec w) (n : ℕ) : List β :=
  (List.range n).map fun i => m (a + BitVec.ofNat w i)

@[simp] theorem length_loaded (m : BitVec w → β) (a : BitVec w) (n : ℕ) :
    (loaded m a n).length = n := by
  rw [loaded, List.length_map, List.length_range]

theorem loaded_getElem? (m : BitVec w → β) (a : BitVec w) (h : i < n) :
    (loaded m a n)[i]? = some (m (a + BitVec.ofNat w i)) := by
  rw [loaded, List.getElem?_map, List.getElem?_range h]
  rfl

theorem loaded_append (m : BitVec w → β) (a : BitVec w) (k n : ℕ) :
    loaded m a k ++ loaded m (a + BitVec.ofNat w k) n = loaded m a (k + n) := by
  simp only [loaded, List.range_add, List.map_append, List.map_map, List.append_cancel_left_eq]
  refine List.map_congr_left fun i _ => ?_
  rw [Function.comp_apply, BitVec.ofNat_add, BitVec.add_assoc]

/-- A block that is written does not change what stands outside of it. -/
theorem loaded_stored {l : List β}
    (h : ∀ i < n, l.length ≤ (b + BitVec.ofNat w i - a).toNat) :
    loaded (stored m a l) b n = loaded m b n := by
  refine List.map_congr_left fun i hi => ?_
  rw [stored, List.getD_eq_default _ _ (h i (List.mem_range.mp hi))]

/-! ### Copying -/

/-- Memory after the `n` values from `src` on have been copied to `dst`. -/
def copied (m : BitVec w → β) (dst src : BitVec w) (n : ℕ) : BitVec w → β :=
  stored m dst (loaded m src n)

theorem copied_apply (m : BitVec w → β) (dst src x : BitVec w) (n : ℕ) :
    copied m dst src n x = if (x - dst).toNat < n then m (src + (x - dst)) else m x := by
  rw [copied, stored]
  split_ifs with h
  · rw [List.getD_eq_getElem?_getD, loaded_getElem? m src h, Option.getD_some,
      BitVec.ofNat_toNat, BitVec.setWidth_eq]
  · rw [List.getD_eq_default _ _ (by rw [length_loaded]; exact Nat.le_of_not_lt h)]

/-- A block and then the one behind it, when the second one is not yet overwritten. -/
theorem copied_up (hn : k + n ≤ 2 ^ w)
    (h : ∀ i < n, k ≤ (src + BitVec.ofNat w k + BitVec.ofNat w i - dst).toNat) :
    copied (copied m dst src k) (dst + BitVec.ofNat w k) (src + BitVec.ofNat w k) n =
      copied m dst src (k + n) := by
  have hread : loaded (copied m dst src k) (src + BitVec.ofNat w k) n =
      loaded m (src + BitVec.ofNat w k) n := loaded_stored (by simpa only [length_loaded] using h)
  calc copied (copied m dst src k) (dst + BitVec.ofNat w k) (src + BitVec.ofNat w k) n
      = stored (stored m dst (loaded m src k)) (dst + BitVec.ofNat w k)
          (loaded m (src + BitVec.ofNat w k) n) := by rw [copied, hread, copied]
    _ = stored m dst (loaded m src k ++ loaded m (src + BitVec.ofNat w k) n) := by
        rw [← stored_append, length_loaded]
        rwa [length_loaded, length_loaded]
    _ = copied m dst src (k + n) := by rw [copied, loaded_append]

/-- A block and then the one before it, when the second one is not yet overwritten. -/
theorem copied_down (hn : k + n ≤ 2 ^ w)
    (h : ∀ i < k, n ≤ (src + BitVec.ofNat w i - (dst + BitVec.ofNat w k)).toNat) :
    copied (copied m (dst + BitVec.ofNat w k) (src + BitVec.ofNat w k) n) dst src k =
      copied m dst src (k + n) := by
  have hread : loaded (copied m (dst + BitVec.ofNat w k) (src + BitVec.ofNat w k) n) src k =
      loaded m src k := loaded_stored (by simpa only [length_loaded] using h)
  calc copied (copied m (dst + BitVec.ofNat w k) (src + BitVec.ofNat w k) n) dst src k
      = stored (stored m (dst + BitVec.ofNat w k) (loaded m (src + BitVec.ofNat w k) n)) dst
          (loaded m src k) := by rw [copied, hread, copied]
    _ = stored m dst (loaded m src k ++ loaded m (src + BitVec.ofNat w k) n) := by
        rw [← stored_append_front, length_loaded]
        rwa [length_loaded, length_loaded]
    _ = copied m dst src (k + n) := by rw [copied, loaded_append]

/-! ### Block by block -/

/-- Copy `i` blocks of `k` values, the lowest one first. -/
def copyUp (k : ℕ) : ℕ → BitVec w → BitVec w → (BitVec w → β) → BitVec w → β
  | 0, _, _, m => m
  | i + 1, d, s, m =>
    copyUp k i (d + BitVec.ofNat w k) (s + BitVec.ofNat w k) (copied m d s k)

/-- Copy `i` blocks of `k` values, the highest one first; `d` and `s` are the ends of the
blocks. -/
def copyDown (k : ℕ) : ℕ → BitVec w → BitVec w → (BitVec w → β) → BitVec w → β
  | 0, _, _, m => m
  | i + 1, d, s, m =>
    copyDown k i (d - BitVec.ofNat w k) (s - BitVec.ofNat w k)
      (copied m (d - BitVec.ofNat w k) (s - BitVec.ofNat w k) k)

theorem toNat_add_ofNat_of_lt (h : a.toNat + i < 2 ^ w) :
    (a + BitVec.ofNat w i).toNat = a.toNat + i := by
  rw [BitVec.toNat_add, BitVec.toNat_ofNat, Nat.add_mod_mod, Nat.mod_eq_of_lt h]

/-- How far an address that stands `i` behind `a` is from one below it, and from one above. -/
theorem le_toNat_sub_of_le (h : a.toNat + i < 2 ^ w) (hb : b.toNat + k ≤ a.toNat + i) :
    k ≤ (a + BitVec.ofNat w i - b).toNat := by
  have hadd := toNat_add_ofNat_of_lt h
  rw [BitVec.toNat_sub_of_le (BitVec.le_def.mpr (by omega)), hadd]
  omega

theorem le_toNat_sub_of_lt (h : a.toNat + i < b.toNat) (hb : b.toNat + k ≤ 2 ^ w) :
    k ≤ (a + BitVec.ofNat w i - b).toNat := by
  have hlt := b.isLt
  have hadd := toNat_add_ofNat_of_lt (a := a) (i := i) (h.trans hlt)
  rw [BitVec.toNat_sub, hadd, Nat.mod_eq_of_lt (by omega)]
  omega

/-- Copying upwards copies, if the source does not start below the destination or ends before
it. -/
theorem copyUp_eq (hsrc : src.toNat + k * i ≤ 2 ^ w) (hdst : dst.toNat + k * i ≤ 2 ^ w)
    (h : dst.toNat ≤ src.toNat ∨ src.toNat + k * i ≤ dst.toNat) :
    copyUp k i dst src m = copied m dst src (k * i) := by
  induction i generalizing dst src m with
  | zero => rfl
  | succ i ih =>
    have hblocks : k * (i + 1) = k + k * i := by rw [Nat.mul_succ, Nat.add_comm]
    rw [hblocks] at hsrc hdst h ⊢
    rw [copyUp]
    obtain hzero | hpos := Nat.eq_zero_or_pos (k * i)
    · -- the last block; what is behind it may be the beginning of the address space
      have hle := Nat.le_total (dst + BitVec.ofNat w k).toNat (src + BitVec.ofNat w k).toNat
      rw [hzero] at ih ⊢
      exact ih (BitVec.isLt _).le (BitVec.isLt _).le hle
    · have hsrc' := toNat_add_ofNat_of_lt (a := src) (i := k) (by omega)
      have hdst' := toNat_add_ofNat_of_lt (a := dst) (i := k) (by omega)
      rw [ih (by omega) (by omega) (by omega)]
      refine copied_up (by omega) fun j hj => ?_
      obtain hle | hlt := h
      · exact le_toNat_sub_of_le (by omega) (by omega)
      · exact le_toNat_sub_of_lt (by omega) (by omega)

/-- Copying downwards copies, if the source does not start above the destination. -/
theorem copyDown_eq (hsrc : src.toNat + k * i ≤ 2 ^ w) (hdst : dst.toNat + k * i ≤ 2 ^ w)
    (h : src.toNat ≤ dst.toNat) :
    copyDown k i (dst + BitVec.ofNat w (k * i)) (src + BitVec.ofNat w (k * i)) m =
      copied m dst src (k * i) := by
  induction i generalizing m with
  | zero => rfl
  | succ i ih =>
    have hblocks : k * (i + 1) = k * i + k := Nat.mul_succ k i
    have hprev : ∀ a : BitVec w, a + BitVec.ofNat w (k * i + k) - BitVec.ofNat w k =
        a + BitVec.ofNat w (k * i) := by
      intro a
      rw [BitVec.ofNat_add, ← BitVec.add_assoc, BitVec.add_sub_cancel]
    rw [hblocks] at hsrc hdst ⊢
    rw [copyDown, hprev, hprev, ih (by omega) (by omega)]
    refine copied_down (by omega) fun j hj => ?_
    obtain rfl | hk := Nat.eq_zero_or_pos k
    · exact Nat.zero_le _
    · have hdst' := toNat_add_ofNat_of_lt (a := dst) (i := k * i) (by omega)
      exact le_toNat_sub_of_lt (by omega) (by omega)

end Jos
