import Mathlib.Data.BitVec
import Mathlib.Data.List.GetD

/-!
# Blocks in a memory of machine words

The addresses of a machine are words of `w` bits, and a block is a list of values at
consecutive addresses, which may run over the end of the address space to its beginning.
`stored m a l` is the memory `m` with the block `l` written at `a`: it holds the values of
`l` (`stored_getElem`) and is `m` outside of it (`stored_outside`). Two blocks of which one
follows the other are one block, whichever is written first (`stored_append` and
`stored_append_front`). A write behind the block extends it (`update_stored`), so a loop that
writes one value after the other leaves one block.
-/

namespace Jos

variable {w : ℕ} {β : Type*} {m : BitVec w → β} {a x : BitVec w} {l : List β} {i : ℕ}

/-- Memory with the values `l` stored from address `a` on. -/
def stored (m : BitVec w → β) (a : BitVec w) (l : List β) : BitVec w → β :=
  fun x => l.getD (x - a).toNat (m x)

theorem stored_nil (m : BitVec w → β) (a : BitVec w) : stored m a [] = m := rfl

/-- An address is its distance from another one behind it. -/
theorem add_ofNat_toNat_sub (a x : BitVec w) : a + BitVec.ofNat w (x - a).toNat = x := by
  rw [BitVec.ofNat_toNat, BitVec.setWidth_eq, BitVec.add_comm, BitVec.sub_add_cancel]

theorem toNat_add_ofNat_sub (a : BitVec w) (hi : i < 2 ^ w) :
    (a + BitVec.ofNat w i - a).toNat = i := by
  rw [BitVec.add_comm, BitVec.add_sub_cancel, BitVec.toNat_ofNat, Nat.mod_eq_of_lt hi]

theorem stored_getElem (m : BitVec w → β) (a : BitVec w) (hl : l.length ≤ 2 ^ w) {b : β}
    (hb : l[i]? = some b) : stored m a l (a + BitVec.ofNat w i) = b := by
  have hi : i < l.length := (List.getElem?_eq_some_iff.mp hb).1
  rw [stored, toNat_add_ofNat_sub a (by omega), List.getD_eq_getElem?_getD, hb]
  rfl

/-- What is outside of the block stays as it was. -/
theorem stored_outside (m : BitVec w → β) (h : ∀ i < l.length, x ≠ a + BitVec.ofNat w i) :
    stored m a l x = m x := by
  have hlen : l.length ≤ (x - a).toNat := by
    by_contra hlt
    exact h _ (not_le.mp hlt) (add_ofNat_toNat_sub a x).symm
  rw [stored, List.getD_eq_default _ _ hlen]

/-- The distance to an address from one that is `k` further up, before that one and from it
on. -/
theorem toNat_sub_add_of_lt {k : ℕ} (hk : k ≤ 2 ^ w) (h : (x - a).toNat < k) :
    (x - (a + BitVec.ofNat w k)).toNat = 2 ^ w - k + (x - a).toNat := by
  rw [sub_add_eq_sub_sub, BitVec.toNat_sub, BitVec.toNat_ofNat]
  obtain rfl | hk := Nat.eq_or_lt_of_le hk
  · rw [Nat.mod_self, Nat.sub_zero, Nat.add_mod_left, Nat.mod_eq_of_lt h, Nat.sub_self,
      Nat.zero_add]
  · rw [Nat.mod_eq_of_lt hk, Nat.mod_eq_of_lt (by omega)]

theorem toNat_sub_add_of_le {k : ℕ} (h : k ≤ (x - a).toNat) :
    (x - (a + BitVec.ofNat w k)).toNat = (x - a).toNat - k := by
  have hlt := (x - a).isLt
  have hk : k < 2 ^ w := h.trans_lt hlt
  have hwrap : 2 ^ w - k + (x - a).toNat = (x - a).toNat - k + 2 ^ w := by omega
  calc (x - (a + BitVec.ofNat w k)).toNat
      = (2 ^ w - k + (x - a).toNat) % 2 ^ w := by
        rw [sub_add_eq_sub_sub, BitVec.toNat_sub, BitVec.toNat_ofNat, Nat.mod_eq_of_lt hk]
    _ = ((x - a).toNat - k + 2 ^ w) % 2 ^ w := by rw [hwrap]
    _ = (x - a).toNat - k := by rw [Nat.add_mod_right, Nat.mod_eq_of_lt (by omega)]

section Append

variable {l' : List β}

/-- An address in the first of two blocks that follow one another, or in neither. -/
theorem stored_behind (hl : l.length + l'.length ≤ 2 ^ w) (h : (x - a).toNat < l.length) :
    stored m (a + BitVec.ofNat w l.length) l' x = m x := by
  rw [stored, toNat_sub_add_of_lt (by omega) h, List.getD_eq_default _ _ (by omega)]

/-- A block and then the one behind it. -/
theorem stored_append (m : BitVec w → β) (a : BitVec w) (hl : l.length + l'.length ≤ 2 ^ w) :
    stored (stored m a l) (a + BitVec.ofNat w l.length) l' = stored m a (l ++ l') := by
  funext x
  obtain hlt | hge := Nat.lt_or_ge (x - a).toNat l.length
  · rw [stored_behind hl hlt, stored, stored, List.getD_append _ _ _ _ hlt]
  · rw [stored, toNat_sub_add_of_le hge, stored, stored, List.getD_append_right _ _ _ _ hge,
      List.getD_eq_default l _ hge]

/-- A block and then the one before it. -/
theorem stored_append_front (m : BitVec w → β) (a : BitVec w)
    (hl : l.length + l'.length ≤ 2 ^ w) :
    stored (stored m (a + BitVec.ofNat w l.length) l') a l = stored m a (l ++ l') := by
  funext x
  rw [stored]
  obtain hlt | hge := Nat.lt_or_ge (x - a).toNat l.length
  · rw [stored_behind hl hlt, stored, List.getD_append _ _ _ _ hlt]
  · rw [List.getD_eq_default l _ hge, stored, toNat_sub_add_of_le hge, stored,
      List.getD_append_right _ _ _ _ hge]

end Append

/-- A write is a block of one value. -/
theorem update_eq_stored (m : BitVec w → β) (a : BitVec w) (b : β) :
    Function.update m a b = stored m a [b] := by
  funext x
  by_cases hx : x = a
  · rw [hx, Function.update_self, stored, BitVec.sub_self, BitVec.toNat_zero]
    rfl
  · have hpos : 1 ≤ (x - a).toNat := by
      refine Nat.pos_of_ne_zero fun hc => hx ?_
      rw [← add_ofNat_toNat_sub a x, hc, BitVec.add_zero]
    rw [Function.update_of_ne hx, stored, List.getD_eq_default _ _ hpos]

/-- A write behind the block extends it. -/
theorem update_stored (m : BitVec w → β) (a : BitVec w) (hl : l.length < 2 ^ w) (b : β) :
    Function.update (stored m a l) (a + BitVec.ofNat w l.length) b = stored m a (l ++ [b]) := by
  rw [update_eq_stored]
  exact stored_append m a hl

/-- A write of what is there anyway changes nothing. -/
theorem stored_append_self (m : BitVec w → β) (a : BitVec w) (hl : l.length < 2 ^ w) :
    stored m a (l ++ [m (a + BitVec.ofNat w l.length)]) = stored m a l := by
  rw [← update_stored m a hl, Function.update_eq_self_iff]
  refine (stored_outside m fun i hi hc => ?_).symm
  have hi' : (a + BitVec.ofNat w l.length - a).toNat = (a + BitVec.ofNat w i - a).toNat := by
    rw [hc]
  rw [toNat_add_ofNat_sub a hl, toNat_add_ofNat_sub a (by omega)] at hi'
  exact hi.ne' hi'

end Jos
