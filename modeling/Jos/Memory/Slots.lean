import Jos.Library.RefAlloc
import Jos.Memory.Layout
import Mathlib.Data.Fintype.Option
import Mathlib.Data.Fintype.Sigma
import Mathlib.Data.Fintype.Sum
import Mathlib.Tactic.DeriveFintype

/-!
# The references that address spaces hold

An address space is that of the kernel (`none`, rooted at `kern_pgdir`) or of a
live environment (`some e`, rooted at its `env_pgdir`). The places of an address
space that count as a reference to a page are its *slots*:

* the page directory itself, for an environment (`Slot.dir`);
* a page directory entry (`Slot.pde`): below `UTOP` for an environment, and
  anywhere but in the self-referring `UVPT` slot for the kernel. Entries at and
  above `UTOP` of an environment are copies of the kernel's and are not counted
  again;
* a page table entry below `UTOP` (`Slot.pte`).

`slots` reads the slots off memory by a two-level walk. `refs p` is the number of
slots that refer to page `p`, which is what `pp_ref` is meant to be.

Memory is shared by everything, so the content of this file is what one write to
memory does to the slots: a write to a page table changes one `pte` slot
(`slots_setWord_pte`), a write to a page directory whose table is empty changes
one `pde` slot (`slots_setWord_pde`), and a write outside all tables changes none
(`slots_congr`). All of it rests on `Separated`: every table belongs to one slot
of one address space.
-/

namespace Jos

/-- An address space: the kernel's, or that of an environment. -/
abbrev Space := Option (Fin nenv)

/-- The frame of the page directory of a space, if it has one. -/
def dirFrame (B : Boot) (σ : State) : Space → Option ℕ
  | none => some B.kernFrame
  | some e =>
    if (σ.envs e).envStatus = .free ∨ (σ.envs e).envPgdir = 0#32 then none
    else some (frameAt (σ.envs e).envPgdir)

/-- A place that holds a reference to a page. -/
inductive Slot where
  | dir (e : Fin nenv)
  | pde (a : Space) (i : Fin 1024)
  | pte (a : Space) (i j : Fin 1024)
deriving DecidableEq, Fintype

/-- The slots whose page is a table: it is owned by that slot. -/
def Slot.IsTable : Slot → Prop
  | .dir _ | .pde _ _ => True
  | .pte _ _ _ => False

/-- The page directory entries that count. -/
def Tracked : Space → Fin 1024 → Prop
  | none, i => i ≠ pdx uvpt
  | some _, i => i.val < 955

instance (a : Space) (i : Fin 1024) : Decidable (Tracked a i) := by
  cases a <;> unfold Tracked <;> infer_instance

theorem tracked_of_lt {i : Fin 1024} (hi : i.val < 955) (a : Space) : Tracked a i := by
  cases a with
  | none =>
    rintro rfl
    rw [pdx_uvpt] at hi
    exact absurd hi (by decide)
  | some e => exact hi

/-- The page and permissions each slot refers to. -/
def slots (B : Boot) (σ : State) : Slot → Option (ℕ × BitVec 12)
  | .dir e => (dirFrame B σ (some e)).map fun d => (d, 0#12)
  | .pde a i =>
    if Tracked a i then (dirFrame B σ a).bind fun d => entryOf (σ.mem d i) else none
  | .pte a i j =>
    if i.val < 955 then
      (dirFrame B σ a).bind fun d => (entryOf (σ.mem d i)).bind fun t => entryOf (σ.mem t.1 j)
    else none

/-- The page each slot refers to. -/
def slotRef (B : Boot) (σ : State) (s : Slot) : Option ℕ := (slots B σ s).map Prod.fst

/-- The number of references to page `p`. -/
def refs (B : Boot) (σ : State) (p : ℕ) : ℕ := refCount (slotRef B σ) p

/-- Every table is owned by one slot, and every referenced page is managed. -/
structure Separated (B : Boot) (σ : State) : Prop where
  managed : ∀ s p, slotRef B σ s = some p → B.Managed p
  unique : ∀ s s' p, s.IsTable → slotRef B σ s = some p → slotRef B σ s' = some p → s' = s

section Reading

variable {B : Boot} {σ : State} {a : Space} {d : ℕ} {i j : Fin 1024}

theorem x86Walk_eq_some {π₁ π₂ : BitVec 12} {p : ℕ} :
    x86Walk σ d i j = some (π₁, π₂, p) ↔
      ∃ u, entryOf (σ.mem d i) = some (u, π₁) ∧ entryOf (σ.mem u j) = some (p, π₂) := by
  unfold x86Walk
  constructor
  · intro h
    obtain ⟨⟨u, ρ₁⟩, hu, hrest⟩ := Option.bind_eq_some_iff.mp h
    obtain ⟨⟨q, ρ₂⟩, hq, hret⟩ := Option.map_eq_some_iff.mp hrest
    cases hret
    exact ⟨u, hu, hq⟩
  · rintro ⟨u, hu, hq⟩
    rw [hu, Option.bind_some, hq]
    rfl

theorem slotRef_dir (e : Fin nenv) : slotRef B σ (.dir e) = dirFrame B σ (some e) := by
  simp only [slotRef, slots]
  cases dirFrame B σ (some e) <;> rfl

theorem slots_pde (hd : dirFrame B σ a = some d) (ht : Tracked a i) :
    slots B σ (.pde a i) = entryOf (σ.mem d i) := by
  simp [slots, ht, hd]

theorem slots_pte (hd : dirFrame B σ a = some d) (hi : i.val < 955) {t : ℕ × BitVec 12}
    (ht : entryOf (σ.mem d i) = some t) :
    slots B σ (.pte a i j) = entryOf (σ.mem t.1 j) := by
  simp [slots, hi, hd, ht]

theorem slots_pte_of_none (hd : dirFrame B σ a = some d) (ht : entryOf (σ.mem d i) = none) :
    slots B σ (.pte a i j) = none := by
  simp [slots, hd, ht]

/-- Writing one slot writes the page it refers to. -/
theorem slotRef_update {σ' : State} {s : Slot} {v : Option (ℕ × BitVec 12)}
    (h : slots B σ' = Function.update (slots B σ) s v) :
    slotRef B σ' = Function.update (slotRef B σ) s (v.map Prod.fst) := by
  ext s'
  unfold slotRef
  rw [h]
  by_cases hs : s' = s
  · subst hs; simp
  · simp [Function.update_of_ne hs]

end Reading

namespace Separated

variable {B : Boot} {σ : State} {a a' : Space} {d d' t : ℕ} {i i' : Fin 1024}

theorem dirFrame_inj (h : Separated B σ) (hd : dirFrame B σ a = some d)
    (hd' : dirFrame B σ a' = some d) : a' = a := by
  have hdir (e : Fin nenv) (he : dirFrame B σ (some e) = some d) :
      slotRef B σ (.dir e) = some d := by
    rw [slotRef_dir, he]
  -- the kernel's directory is reserved, every other one is managed
  cases a with
  | none =>
    cases a' with
    | none => rfl
    | some e' =>
      refine absurd ?_ (h.managed _ _ (hdir e' hd')).ne_kernFrame
      simpa [dirFrame] using hd.symm
  | some e =>
    cases a' with
    | none =>
      refine absurd ?_ (h.managed _ _ (hdir e hd)).ne_kernFrame
      simpa [dirFrame] using hd'.symm
    | some e' =>
      have hs := h.unique (.dir e) (.dir e') d trivial (hdir e hd) (hdir e' hd')
      rw [Slot.dir.injEq] at hs
      rw [hs]

/-- A page directory is not the page of a slot, unless it is its own `dir` slot. -/
theorem dirFrame_ne (h : Separated B σ) (hd : dirFrame B σ a = some d) {s : Slot}
    (hs : ∀ e, s ≠ .dir e) : slotRef B σ s ≠ some d := by
  intro ht
  cases a with
  | none =>
    refine absurd ?_ (h.managed _ _ ht).ne_kernFrame
    simpa [dirFrame] using hd.symm
  | some e =>
    -- the directory is owned by its `dir` slot
    have hde : slotRef B σ (.dir e) = some d := by rw [slotRef_dir, hd]
    exact hs e (h.unique (.dir e) s d trivial hde ht)

theorem slotRef_pde (hd : dirFrame B σ a = some d) (htr : Tracked a i) {π : BitVec 12}
    (ht : entryOf (σ.mem d i) = some (t, π)) : slotRef B σ (.pde a i) = some t := by
  rw [slotRef, slots_pde hd htr, ht]
  rfl

/-- A page table belongs to one directory slot. -/
theorem table_inj (h : Separated B σ) (hd : dirFrame B σ a = some d)
    (hd' : dirFrame B σ a' = some d') (htr : Tracked a i) (htr' : Tracked a' i')
    {π π' : BitVec 12} (ht : entryOf (σ.mem d i) = some (t, π))
    (ht' : entryOf (σ.mem d' i') = some (t, π')) : a' = a ∧ i' = i := by
  have hs := h.unique (.pde a i) (.pde a' i') t trivial (slotRef_pde hd htr ht)
    (slotRef_pde hd' htr' ht')
  rw [Slot.pde.injEq] at hs
  exact hs

/-- A page table is not a page directory. -/
theorem table_ne_dirFrame (h : Separated B σ) (hd : dirFrame B σ a = some d)
    (hd' : dirFrame B σ a' = some d') (htr : Tracked a i) {π : BitVec 12}
    (ht : entryOf (σ.mem d i) = some (t, π)) : d' ≠ t := by
  rintro rfl
  exact h.dirFrame_ne hd' (fun e he => by cases he) (slotRef_pde hd htr ht)

end Separated

section Writing

variable {B : Boot} {σ σ' : State} {a : Space} {d : ℕ} {i j : Fin 1024}

/-- Slots depend on the directories and on the words of the tables only. -/
theorem slots_congr (hdir : ∀ a, dirFrame B σ' a = dirFrame B σ a)
    (hpd : ∀ a d, dirFrame B σ a = some d → ∀ i, Tracked a i → σ'.mem d i = σ.mem d i)
    (hpt : ∀ a d i t, dirFrame B σ a = some d → i.val < 955 → entryOf (σ.mem d i) = some t →
      σ'.mem t.1 = σ.mem t.1) :
    slots B σ' = slots B σ := by
  ext s
  -- a slot is read through the directory, and a PTE through its page table as well
  cases s with
  | dir e => simp only [slots, hdir]
  | pde a i =>
    simp only [slots, hdir]
    split
    · next htr =>
      cases hd : dirFrame B σ a with
      | none => rfl
      | some d => simp [hpd a d hd i htr]
    · rfl
  | pte a i j =>
    simp only [slots, hdir]
    split
    · next hi =>
      cases hd : dirFrame B σ a with
      | none => rfl
      | some d =>
        simp only [Option.bind_some, hpd a d hd i (tracked_of_lt hi a)]
        cases ht : entryOf (σ.mem d i) with
        | none => rfl
        | some t => simp [hpt a d i t hd hi ht]
    · rfl

theorem dirFrame_setWord (f : ℕ) (k : Fin 1024) (w : Word) (a : Space) :
    dirFrame B (σ.setWord f k w) a = dirFrame B σ a := by
  cases a <;> rfl

theorem setWord_mem_of_ne {f f' : ℕ} (hne : f' ≠ f) (k : Fin 1024) (w : Word) :
    (σ.setWord f k w).mem f' = σ.mem f' := by
  simp [State.setWord, Function.update_of_ne hne]

theorem setWord_mem_self (f : ℕ) (k : Fin 1024) (w : Word) :
    (σ.setWord f k w).mem f = Function.update (σ.mem f) k w := by
  simp [State.setWord]

/-- A store into a page table is a write of one `pte` slot. -/
theorem slots_setWord_pte (h : Separated B σ) (hd : dirFrame B σ a = some d) (hi : i.val < 955)
    {t : ℕ} {π : BitVec 12} (ht : entryOf (σ.mem d i) = some (t, π)) (w : Word) :
    slots B (σ.setWord t j w) = Function.update (slots B σ) (.pte a i j) (entryOf w) := by
  have htr := tracked_of_lt hi a
  -- no directory is the table, so directory words are untouched
  have hdm : ∀ a' d', dirFrame B σ a' = some d' → (σ.setWord t j w).mem d' = σ.mem d' :=
    fun a' d' hd' => setWord_mem_of_ne (h.table_ne_dirFrame hd hd' htr ht) j w
  ext s
  cases s with
  | dir e =>
    rw [Function.update_of_ne (by simp)]
    simp only [slots, dirFrame_setWord]
  | pde a' i' =>
    rw [Function.update_of_ne (by simp)]
    simp only [slots, dirFrame_setWord]
    cases hd' : dirFrame B σ a' with
    | none => rfl
    | some d' => simp [hdm a' d' hd']
  | pte a' i' j' =>
    by_cases hi' : i'.val < 955
    · cases hd' : dirFrame B σ a' with
      | none =>
        rw [Function.update_of_ne (by rintro ⟨⟩; rw [hd] at hd'; cases hd')]
        simp [slots, dirFrame_setWord, hd']
      | some d' =>
        have hd'' : dirFrame B (σ.setWord t j w) a' = some d' := by rw [dirFrame_setWord, hd']
        cases ht' : entryOf (σ.mem d' i') with
        | none =>
          -- without a table there is no entry, and it is not the written one
          rw [slots_pte_of_none hd'' (by rw [hdm a' d' hd', ht']), Function.update_of_ne,
            slots_pte_of_none hd' ht']
          rintro ⟨⟩
          obtain rfl : d = d' := Option.some.inj (hd.symm.trans hd')
          rw [ht] at ht'
          cases ht'
        | some u =>
          obtain ⟨u, ρ⟩ := u
          rw [slots_pte hd'' hi' (by rw [hdm a' d' hd', ht'])]
          by_cases hut : u = t
          · -- the written table: only one directory slot reaches it
            subst hut
            obtain ⟨rfl, rfl⟩ := h.table_inj hd hd' htr (tracked_of_lt hi' a') ht ht'
            obtain rfl : d = d' := Option.some.inj (hd.symm.trans hd')
            rw [setWord_mem_self]
            by_cases hj : j' = j
            · subst hj; simp
            · rw [Function.update_of_ne hj, Function.update_of_ne (by simp [hj]),
                slots_pte hd hi ht]
          · -- another table: were it the same slot, it would be the same table
            rw [setWord_mem_of_ne hut, Function.update_of_ne, slots_pte hd' hi' ht']
            rintro ⟨⟩
            obtain rfl : d = d' := Option.some.inj (hd.symm.trans hd')
            rw [ht] at ht'
            simp only [Option.some.injEq, Prod.mk.injEq] at ht'
            exact hut ht'.1.symm
    · -- entries at and above `UTOP` are not counted
      rw [Function.update_of_ne (by rintro ⟨⟩; exact hi' hi)]
      simp [slots, hi']

/-- A store into a page directory leaves every other directory entry alone. -/
theorem Separated.setWord_dir_mem (h : Separated B σ) {a' : Space} {d' : ℕ} {i' : Fin 1024}
    (hd : dirFrame B σ a = some d) (hd' : dirFrame B σ a' = some d') (hs : ¬(a' = a ∧ i' = i))
    (w : Word) : (σ.setWord d i w).mem d' i' = σ.mem d' i' := by
  by_cases hdd : d' = d
  · -- the same directory is that of the same space, so the index differs
    subst hdd
    obtain rfl := h.dirFrame_inj hd hd'
    rw [setWord_mem_self, Function.update_of_ne fun hii => hs ⟨rfl, hii⟩]
  · rw [setWord_mem_of_ne hdd]

/-- A store into a page directory is a write of one `pde` slot, when the table it
refers to has no present entry, before and after. -/
theorem slots_setWord_pde (h : Separated B σ) (hd : dirFrame B σ a = some d) (htr : Tracked a i)
    (hold : ∀ j, slots B σ (.pte a i j) = none) (w : Word)
    (hnew : ∀ t, entryOf w = some t → t.1 ≠ d ∧ ∀ j, entryOf (σ.mem t.1 j) = none) :
    slots B (σ.setWord d i w) = Function.update (slots B σ) (.pde a i) (entryOf w) := by
  funext s
  cases s with
  | dir e =>
    rw [Function.update_of_ne (by simp)]
    simp only [slots, dirFrame_setWord]
  | pde a' i' =>
    by_cases hs : a' = a ∧ i' = i
    · obtain ⟨rfl, rfl⟩ := hs
      rw [Function.update_self, slots_pde (by rw [dirFrame_setWord, hd]) htr, setWord_mem_self,
        Function.update_self]
    · rw [Function.update_of_ne (by simpa using hs)]
      simp only [slots, dirFrame_setWord]
      cases hd' : dirFrame B σ a' with
      | none => rfl
      | some d' => simp only [Option.bind_some, h.setWord_dir_mem hd hd' hs]
  | pte a' i' j' =>
    rw [Function.update_of_ne (by simp)]
    by_cases hi' : i'.val < 955
    · cases hd' : dirFrame B σ a' with
      | none => simp [slots, dirFrame_setWord, hd']
      | some d' =>
        have hd'' : dirFrame B (σ.setWord d i w) a' = some d' := by rw [dirFrame_setWord, hd']
        by_cases hs : a' = a ∧ i' = i
        · -- the table behind the written entry is empty
          obtain ⟨rfl, rfl⟩ := hs
          obtain rfl : d = d' := Option.some.inj (hd.symm.trans hd')
          have hw : (σ.setWord d i' w).mem d i' = w := by
            rw [setWord_mem_self, Function.update_self]
          rw [hold j']
          cases ht : entryOf w with
          | none => exact slots_pte_of_none hd'' (by rw [hw, ht])
          | some t =>
            obtain ⟨htd, hte⟩ := hnew t ht
            rw [slots_pte hd'' hi' (by rw [hw, ht]), setWord_mem_of_ne htd, hte j']
        · have hpd := h.setWord_dir_mem hd hd' hs w
          cases ht : entryOf (σ.mem d' i') with
          | none =>
            rw [slots_pte_of_none hd'' (by rw [hpd, ht]), slots_pte_of_none hd' ht]
          | some t =>
            -- another table, which is not the written directory
            have htd : t.1 ≠ d :=
              (h.table_ne_dirFrame hd' hd (tracked_of_lt hi' a') ht).symm
            rw [slots_pte hd'' hi' (by rw [hpd, ht]), slots_pte hd' hi' ht,
              setWord_mem_of_ne htd]
    · simp [slots, hi']

end Writing

end Jos
