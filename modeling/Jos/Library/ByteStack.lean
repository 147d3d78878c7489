import Mathlib.Data.BitVec

/-!
# Words on a stack in byte memory

Memory is a function from 32-bit addresses to bytes, and words are stored with their lowest byte
first. `Stacked m a ws` says that the words `ws` stand in memory one after the other from `a` on,
so a push is a `cons` (`Stacked.push`), a pop takes the head (`Stacked.head`, `Stacked.tail`), and
a copy of the bytes is a copy of the words (`Stacked.copy`).
-/

namespace Jos

/-- Memory, a byte for each address. -/
abbrev ByteMem := BitVec 32 → BitVec 8

/-- The 16-bit word at `a`. -/
def load16 (m : ByteMem) (a : BitVec 32) : BitVec 16 := m (a + 1#32) ++ m a

/-- The 32-bit word at `a`. -/
def load32 (m : ByteMem) (a : BitVec 32) : BitVec 32 := load16 m (a + 2#32) ++ load16 m a

/-- Store the 16-bit word `w` at `a`. -/
def store16 (m : ByteMem) (a : BitVec 32) (w : BitVec 16) : ByteMem := fun x =>
  if (x - a).toNat < 2 then (w >>> (8 * (x - a).toNat)).setWidth 8 else m x

/-- Store the 32-bit word `w` at `a`. -/
def store32 (m : ByteMem) (a w : BitVec 32) : ByteMem := fun x =>
  if (x - a).toNat < 4 then (w >>> (8 * (x - a).toNat)).setWidth 8 else m x

/-- The words `ws` stand one after the other from `a` on. -/
def Stacked (m : ByteMem) : BitVec 32 → List (BitVec 32) → Prop
  | _, [] => True
  | a, w :: ws => load32 m a = w ∧ Stacked m (a + 4#32) ws

variable {m m' : ByteMem} {a b w : BitVec 32} {ws : List (BitVec 32)}

theorem load16_eq (m : ByteMem) (a : BitVec 32) : load16 m a = (load32 m a).setWidth 16 := by
  unfold load32
  generalize load16 m (a + 2#32) = hi
  generalize load16 m a = lo
  ext i hlt
  rw [BitVec.getElem_setWidth, BitVec.getLsbD_append, if_pos hlt, BitVec.getLsbD_eq_getElem hlt]

theorem load32_bytes (m : ByteMem) (a : BitVec 32) :
    load32 m a = (m (a + 3#32) ++ m (a + 2#32)) ++ (m (a + 1#32) ++ m (a + 0#32)) := by
  have hassoc : a + 2#32 + 1#32 = a + 3#32 := by
    rw [BitVec.add_assoc]
    rfl
  rw [load32, load16, load16, hassoc, BitVec.add_zero]

/-- The offset of an address that does not wrap. -/
theorem toNat_add_sub {k : ℕ} (h : (b - a).toNat + k < 2 ^ 32) :
    (b + BitVec.ofNat 32 k - a).toNat = (b - a).toNat + k := by
  have hcomm : b + BitVec.ofNat 32 k - a = b - a + BitVec.ofNat 32 k := by
    rw [BitVec.sub_eq_add_neg, BitVec.sub_eq_add_neg, BitVec.add_assoc,
      BitVec.add_comm (BitVec.ofNat 32 k), ← BitVec.add_assoc]
  rw [hcomm, BitVec.toNat_add, BitVec.toNat_ofNat]
  omega

/-- A word is read from its four bytes. -/
theorem load32_congr (h : ∀ k < 4, m' (b + BitVec.ofNat 32 k) = m (a + BitVec.ofNat 32 k)) :
    load32 m' b = load32 m a := by
  rw [load32_bytes, load32_bytes, h 0 (by omega), h 1 (by omega), h 2 (by omega), h 3 (by omega)]

theorem load32_store32_same (m : ByteMem) (a w : BitVec 32) : load32 (store32 m a w) a = w := by
  have hbyte (k : ℕ) (hk : k < 4) : store32 m a w (a + BitVec.ofNat 32 k) =
      (w >>> (8 * k)).setWidth 8 := by
    have hoff : (a + BitVec.ofNat 32 k - a).toNat = k := by
      rw [toNat_add_sub (by rw [BitVec.sub_self]; simp; omega), BitVec.sub_self]
      simp
    simp only [store32, hoff, if_pos hk]
  rw [load32_bytes, hbyte 0 (by omega), hbyte 1 (by omega), hbyte 2 (by omega), hbyte 3 (by omega)]
  ext i hi
  simp only [BitVec.getElem_append, BitVec.getElem_setWidth, BitVec.getLsbD_ushiftRight]
  -- bit `i` of the word is in byte `i / 8`
  split <;> split <;> simp only [← BitVec.getLsbD_eq_getElem] <;> congr 1 <;> omega

/-- A word that starts after the one that is stored. -/
theorem load32_store32_of_ge (h : 4 ≤ (b - a).toNat) (h' : (b - a).toNat + 4 ≤ 2 ^ 32) :
    load32 (store32 m a w) b = load32 m b := by
  apply load32_congr
  intro k hk
  simp only [store32, toNat_add_sub (show (b - a).toNat + k < 2 ^ 32 by omega)]
  rw [if_neg (by omega)]

namespace Stacked

theorem head (h : Stacked m a (w :: ws)) : load32 m a = w := h.1

theorem tail (h : Stacked m a (w :: ws)) : Stacked m (a + 4#32) ws := h.2

/-- The word at index `i`. -/
theorem get (h : Stacked m a ws) {i : ℕ} (hi : ws[i]? = some w) :
    load32 m (a + BitVec.ofNat 32 (4 * i)) = w := by
  induction ws generalizing a i with
  | nil => simp at hi
  | cons v ws ih =>
    cases i with
    | zero =>
      rw [← Option.some.inj hi, ← h.head]
      simp
    | succ i =>
      rw [← ih h.tail (i := i) (by simpa using hi), BitVec.add_assoc]
      congr 2
      rw [show 4#32 = BitVec.ofNat 32 4 from rfl, ← BitVec.ofNat_add]
      congr 1
      omega

/-- A store below the words leaves them alone. -/
theorem store (h : Stacked m b ws) {a : BitVec 32} (w : BitVec 32) (hlo : 4 ≤ (b - a).toNat)
    (hhi : (b - a).toNat + 4 * ws.length ≤ 2 ^ 32) : Stacked (store32 m a w) b ws := by
  induction ws generalizing b with
  | nil => trivial
  | cons v ws ih =>
    rw [List.length_cons] at hhi
    refine ⟨by rw [load32_store32_of_ge hlo (by omega)]; exact h.head, ?_⟩
    cases ws with
    | nil => trivial
    | cons v' ws =>
      rw [List.length_cons] at hhi
      have hnext : (b + 4#32 - a).toNat = (b - a).toNat + 4 := toNat_add_sub (by omega)
      exact ih h.tail (by omega) (by rw [List.length_cons]; omega)

/-- A push. -/
theorem push (h : Stacked m a ws) (w : BitVec 32) (hlen : 4 * ws.length + 4 ≤ 2 ^ 32) :
    Stacked (store32 m (a - 4#32) w) (a - 4#32) (w :: ws) := by
  have hback : a - 4#32 + 4#32 = a := BitVec.sub_add_cancel a 4#32
  have hdist : (a - (a - 4#32)).toNat = 4 := by bv_omega
  refine ⟨load32_store32_same _ _ _, ?_⟩
  rw [hback]
  exact h.store w (by omega) (by omega)

/-- The words of a copy. -/
theorem copy (h : Stacked m a ws)
    (hcopy : ∀ k < 4 * ws.length, m' (b + BitVec.ofNat 32 k) = m (a + BitVec.ofNat 32 k)) :
    Stacked m' b ws := by
  induction ws generalizing a b with
  | nil => trivial
  | cons w ws ih =>
    rw [List.length_cons] at hcopy
    refine ⟨?_, ih h.tail ?_⟩
    · rw [← h.head]
      exact load32_congr fun k hk => hcopy k (by omega)
    · intro k hk
      have hnext (x : BitVec 32) : x + 4#32 + BitVec.ofNat 32 k = x + BitVec.ofNat 32 (4 + k) := by
        rw [BitVec.add_assoc, BitVec.ofNat_add]
      rw [hnext, hnext]
      exact hcopy (4 + k) (by omega)

end Stacked

end Jos
