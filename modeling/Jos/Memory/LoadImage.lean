import Jos.Library.Overlay
import Jos.Memory.LoadFrame

/-!
# The image that a program becomes

`load_icode` writes the segments of a program through the page tables of the new environment. As
every page of the environment is in one place only, a byte that is written is found where it was
written, and no other byte changes (`LoadInv.storeByte_effect`).

`ImageInv` adds the contents to `LoadInv`: `H` is what has been written so far. A segment is a layer
(`segmentLayer`) that is put over what was there, since `region_alloc` gives its pages anew. The
last lemma, `LoadInv.placeImage_effect`, is about `load_icode` as a whole.
-/

namespace Jos

variable {B : Boot} {σ σ' σ₀ σ₁ : State} {cpu c : ℕ} {e : Fin nenv} {free free' : List ℕ}
  {efree : List (Fin nenv)} {O : Set ℕ} {M T : Finset ℕ} {va a : Word}

/-! ### Bytes of words -/

theorem getLsbD_byteOf (w : Word) (k : ℕ) {i : ℕ} (hi : i < 8) :
    (byteOf w k).getLsbD i = w.getLsbD (8 * k + i) := by
  simp [byteOf, hi]

theorem getLsbD_withByte (w : Word) {k j i : ℕ} (hj : j < 4) (hi : i < 8) (b : Byte) :
    (withByte w k b).getLsbD (8 * j + i) =
      if j = k then b.getLsbD i else w.getLsbD (8 * j + i) := by
  have hpos : 8 * j + i < 32 := by omega
  have hff (n : ℕ) : BitVec.getLsbD 0xFF#32 n = decide (n < 8) := Nat.testBit_two_pow_sub_one 8 n
  simp only [withByte, BitVec.getLsbD_or, BitVec.getLsbD_and, BitVec.getLsbD_not,
    BitVec.getLsbD_shiftLeft, BitVec.getLsbD_setWidth, hff, hpos, decide_true, Bool.true_and]
  by_cases hjk : j = k
  · subst hjk
    have hsub : 8 * j + i - 8 * j = i := by omega
    have hnot : ¬8 * j + i < 8 * j := by omega
    have h32 : i < 32 := by omega
    simp [hsub, hnot, hi, h32]
  · rw [if_neg hjk]
    by_cases hlt : 8 * j + i < 8 * k
    · simp [hlt]
    · -- the byte that is replaced ends before this bit
      have hge : 8 ≤ 8 * j + i - 8 * k := by omega
      rw [BitVec.getLsbD_of_ge b _ hge]
      simp [Nat.not_lt.mpr hge]

theorem byteOf_withByte (w : Word) {k j : ℕ} (hj : j < 4) (b : Byte) :
    byteOf (withByte w k b) j = if j = k then b else byteOf w j := by
  apply BitVec.eq_of_getLsbD_eq
  intro i hi
  rw [getLsbD_byteOf _ _ hi, getLsbD_withByte w hj hi]
  split
  · rfl
  · rw [getLsbD_byteOf _ _ hi]

theorem frameByte_setByte {f off off' : ℕ} (hoff : off < 4096) (hoff' : off' < 4096) (b : Byte) :
    (σ.setByte f off b).frameByte f off' = if off' = off then b else σ.frameByte f off' := by
  have hval (n : ℕ) (hn : n < 4096) : (Fin.ofNat 1024 (n / 4)).val = n / 4 :=
    Nat.mod_eq_of_lt (by omega)
  rw [State.frameByte, State.setByte, setWord_mem_self]
  by_cases hword : off' / 4 = off / 4
  · -- another byte of the word, or the same one
    rw [hword, Function.update_self, byteOf_withByte _ (Nat.mod_lt _ (by decide))]
    have hiff : off' % 4 = off % 4 ↔ off' = off := by omega
    simp only [hiff, State.frameByte, hword]
  · have hne : Fin.ofNat 1024 (off' / 4) ≠ Fin.ofNat 1024 (off / 4) := by
      intro hc
      have := congrArg Fin.val hc
      rw [hval off' hoff', hval off hoff] at this
      exact hword this
    rw [Function.update_of_ne hne, if_neg (fun hc => hword (by rw [hc])), State.frameByte]

/-! ### Memory below `UTOP` -/

theorem userMemory_eq (hd : dirFrame B σ (some e) = some (frameAt (σ.envs e).envPgdir))
    (ha : a < utop) :
    userMemory σ e a =
      (slots B σ (.pte (some e) (pdx a) (ptx a))).map fun u => σ.frameByte u.1 (pgoff a) := by
  have hi := (lt_utop_iff a).mp ha
  rw [userMemory, translate, x86Walk]
  cases ht : entryOf (σ.mem (frameAt (σ.envs e).envPgdir) (pdx a)) with
  | none =>
    rw [slots_pte_of_none hd ht]
    rfl
  | some t =>
    rw [slots_pte hd hi ht, Option.bind_some, Option.map_map]
    rfl

theorem LoadInv.dir (h : LoadInv B e O c efree σ free M) :
    dirFrame B σ (some e) = some (frameAt (σ.envs e).envPgdir) :=
  h.env.dirFrame_live h.live

/-- Mapping a page changes no byte on the other pages. -/
theorem LoadInv.mapPage_userMemory (h : LoadInv B e O c efree σ free M) (hva : va < utop)
    (hrun : Jos.regionAllocLoop B cpu e 1 va σ = .ok σ') (ha : a < utop) (hne : pgnum a ≠ pgnum va)
    {b : Byte} (hb : userMemory σ e a = some b) : userMemory σ' e a = some b := by
  obtain ⟨hkeeps, hslots, hmem⟩ := h.mapPage_effect hva hrun
  have hd' : dirFrame B σ' (some e) = some (frameAt (σ'.envs e).envPgdir) := by
    rw [hkeeps.dirFrame, hkeeps.envs, h.dir]
  have hslot : slots B σ' (.pte (some e) (pdx a) (ptx a)) =
      slots B σ (.pte (some e) (pdx a) (ptx a)) := by
    refine hslots _ (fun hc => hne ?_) (by simp)
    rw [pgnum_eq_iff]
    simpa using hc
  rw [userMemory_eq h.dir ha, Option.map_eq_some_iff] at hb
  obtain ⟨u, hu, hb⟩ := hb
  have href : slotRef B σ (.pte (some e) (pdx a) (ptx a)) = some u.1 := by
    rw [slotRef, hu]
    rfl
  -- a page that is mapped is neither free nor a table
  have hframe : σ'.mem u.1 = σ.mem u.1 := by
    refine hmem u.1 (fun hc => h.page.slot_ne_of_mem hc _ href) fun s ht hs href' => ?_
    rw [h.loaded.slot_unique rfl href href'] at ht
    exact ht
  have hbyte : σ'.frameByte u.1 (pgoff a) = σ.frameByte u.1 (pgoff a) := by
    rw [State.frameByte, State.frameByte, hframe]
  calc userMemory σ' e a
      = some (σ'.frameByte u.1 (pgoff a)) := by
        rw [userMemory_eq hd' ha, hslot, hu, Option.map_some]
    _ = some b := by rw [hbyte, hb]

/-- Writing a byte changes that byte, and nothing that is not `e`'s. -/
theorem LoadInv.storeByte_effect (h : LoadInv B e O c efree σ free M) (hcr3 : InCr3 cpu e σ)
    (hva : va < utop) (hmem : pgnum va ∈ M) (v : Byte) (hrun : Jos.storeByte cpu va v σ = .ok σ') :
    Apart B e σ σ' ∧
      ∀ a, a < utop → userMemory σ' e a = if a = va then some v else userMemory σ e a := by
  obtain ⟨q, hu, hrun'⟩ := h.storeByte_eq hcr3 hva hmem v
  obtain rfl := ok_unique hrun' hrun
  have href : slotRef B σ (.pte (some e) (pdx va) (ptx va)) = some q := by
    rw [slotRef, hu]
    rfl
  obtain ⟨hslots, hkeeps⟩ : slots B (σ.setByte q (pgoff va) v) = slots B σ ∧
      Keeps B σ (σ.setByte q (pgoff va) v) := h.page.separated.setFrame_mapped href _
  refine ⟨.of_keeps hkeeps (fun s _ => by rw [hslots]) fun f hf => ?_, fun a ha => ?_⟩
  · refine setWord_mem_of_ne ?_ _ _
    rintro rfl
    exact h.loaded.not_foreign h.page rfl href hf
  · have hd' : dirFrame B (σ.setByte q (pgoff va) v) (some e) =
        some (frameAt ((σ.setByte q (pgoff va) v).envs e).envPgdir) := h.dir
    have hoff (w : Word) : pgoff w < 4096 := by
      rw [pgoff_eq]
      omega
    rw [userMemory_eq hd' ha, userMemory_eq h.dir ha, hslots]
    by_cases hpage : pgnum a = pgnum va
    · -- on the page of the byte, the offset decides
      have hidx := pgnum_eq_iff.mp hpage
      have hiff : pgoff a = pgoff va ↔ a = va := by
        rw [← BitVec.toNat_inj, pgoff_eq, pgoff_eq]
        rw [pgnum_eq, pgnum_eq] at hpage
        omega
      rw [hidx.1, hidx.2, hu, Option.map_some, Option.map_some,
        frameByte_setByte (hoff va) (hoff a), apply_ite some]
      simp only [hiff]
    · have hne : a ≠ va := fun hc => hpage (by rw [hc])
      rw [if_neg hne]
      cases hs : slots B σ (.pte (some e) (pdx a) (ptx a)) with
      | none => rfl
      | some u =>
        -- no other page of `e` is in that frame
        have hframe : u.1 ≠ q := by
          rintro rfl
          have href' : slotRef B σ (.pte (some e) (pdx a) (ptx a)) = some u.1 := by
            rw [slotRef, hs]
            rfl
          have hsame := h.loaded.slot_unique rfl href href'
          simp only [Slot.pte.injEq] at hsame
          exact hpage (pgnum_eq_iff.mpr hsame.2)
        rw [Option.map_some, Option.map_some, State.frameByte, State.frameByte, State.setByte,
          setWord_mem_of_ne hframe]

/-! ### The contents of the new address space -/

/-- What holds while a program is loaded into `e` from the state `σ₀` on: besides `LoadInv`,
nothing but `e` is touched, and the bytes that have been written (`H`) are there. -/
structure ImageInv (B : Boot) (e : Fin nenv) (O : Set ℕ) (c : ℕ) (efree : List (Fin nenv))
    (σ₀ : State) (H : Memory) (σ : State) (free : List ℕ) (M : Finset ℕ) : Prop
    extends LoadInv B e O c efree σ free M where
  apart : Apart B e σ₀ σ
  contents : ∀ a v, a < utop → H a = some v → userMemory σ e a = some v

/-- The bytes `bs` written at `va`. -/
def writeBytes (bs : List Byte) (va : Word) (H : Memory) : Memory :=
  fun a => bs[(a - va).toNat]?.or (H a)

variable {H H' : Memory}

theorem writeBytes_cons {v : Byte} {bs : List Byte} (hlen : bs.length + 1 < 2 ^ 32) :
    writeBytes (v :: bs) va H = writeBytes bs (va + 1#32) (Function.update H va (some v)) := by
  funext a
  by_cases ha : a = va
  · -- the rest of the bytes does not come round to the first one
    have hlast : (va - (va + 1#32)).toNat = 2 ^ 32 - 1 := by
      rw [← BitVec.sub_sub, BitVec.sub_self]
      rfl
    have hnone : bs[(va - (va + 1#32)).toNat]? = none := by
      rw [List.getElem?_eq_none_iff, hlast]
      omega
    simp only [writeBytes, ha, hnone, BitVec.sub_self, Function.update_self]
    rfl
  · have hpred : (a - va).toNat = (a - (va + 1#32)).toNat + 1 := by
      have hne : a.toNat ≠ va.toNat := fun hc => ha (BitVec.eq_of_toNat_eq hc)
      have hla := a.isLt
      have hlv := va.isLt
      rw [BitVec.toNat_sub, BitVec.toNat_sub, BitVec.toNat_add, BitVec.toNat_ofNat]
      omega
    simp only [writeBytes, hpred, List.getElem?_cons_succ, Function.update_of_ne ha]

namespace ImageInv

theorem mono (h : ImageInv B e O c efree σ₀ H σ free M)
    (hH : ∀ a v, a < utop → H' a = some v → H a = some v) :
    ImageInv B e O c efree σ₀ H' σ free M where
  toLoadInv := h.toLoadInv
  apart := h.apart
  contents a v ha hv := h.contents a v ha (hH a v ha hv)

theorem storeByte (h : ImageInv B e O c efree σ₀ H σ free M) (hcr3 : InCr3 cpu e σ)
    (hva : va < utop) (hmem : pgnum va ∈ M) {v : Byte} (hrun : storeByte cpu va v σ = .ok σ') :
    ImageInv B e O c efree σ₀ (Function.update H va (some v)) σ' free M ∧ InCr3 cpu e σ' := by
  obtain ⟨σ₁, hrun', hinv, hcr3'⟩ := h.toLoadInv.storeByte hcr3 hva hmem v
  obtain rfl := ok_unique hrun' hrun
  obtain ⟨hapart, hbyte⟩ := h.toLoadInv.storeByte_effect hcr3 hva hmem v hrun
  refine ⟨⟨hinv, h.apart.trans hapart, fun a w ha hw => ?_⟩, hcr3'⟩
  rw [hbyte a ha]
  by_cases hav : a = va
  · rw [if_pos hav, ← hw, hav, Function.update_self]
  · rw [Function.update_of_ne hav] at hw
    rw [if_neg hav]
    exact h.contents a w ha hw

/-- `memcpy` and `memset`. -/
theorem storeBytes {bs : List Byte} (h : ImageInv B e O c efree σ₀ H σ free M)
    (hcr3 : InCr3 cpu e σ) (hva : va.toNat + bs.length ≤ utop.toNat)
    (hmem : ∀ k < bs.length, (va.toNat + k) / 4096 ∈ M)
    (hrun : storeBytes cpu bs va σ = .ok σ') :
    ImageInv B e O c efree σ₀ (writeBytes bs va H) σ' free M ∧ InCr3 cpu e σ' := by
  have htop : utop.toNat < 2 ^ 32 - 1 := by decide
  induction bs generalizing σ va H with
  | nil =>
    obtain rfl := Except.ok.inj hrun
    exact ⟨h, hcr3⟩
  | cons v bs ih =>
    rw [List.length_cons] at hva hmem
    have hlt : va < utop := by
      rw [BitVec.lt_def]
      omega
    have hnext := toNat_succ_of_lt_utop hlt
    have hfirst : pgnum va ∈ M := by
      have h0 := hmem 0 (by omega)
      rwa [Nat.add_zero, ← pgnum_eq] at h0
    obtain ⟨σ₁, hstore, hrest⟩ := bind_eq_ok.mp hrun
    obtain ⟨h₁, hcr3₁⟩ := h.storeByte hcr3 hlt hfirst hstore
    -- the byte is in the contents before the rest is
    rw [writeBytes_cons (by omega)]
    refine ih h₁ hcr3₁ (by omega) (fun k hk => ?_) hrest
    have hk' := hmem (k + 1) (by omega)
    rwa [hnext, Nat.add_assoc, Nat.add_comm 1]

/-- One page, and the rest of the loop. -/
theorem regionAllocLoop_succ {n : ℕ} : Jos.regionAllocLoop B cpu e (n + 1) va σ = .ok σ' ↔
    ∃ σ₁, Jos.regionAllocLoop B cpu e 1 va σ = .ok σ₁ ∧
      Jos.regionAllocLoop B cpu e n (va + pgsize) σ₁ = .ok σ' := by
  constructor
  · intro h
    obtain ⟨⟨p, σ₁⟩, halloc, hrest⟩ := bind_eq_ok.mp h
    cases p with
    | none => cases hrest
    | some p =>
      obtain ⟨⟨r, σ₂⟩, hins, hloop⟩ := bind_eq_ok.mp hrest
      refine ⟨σ₂, ?_, hloop⟩
      simp only [Jos.regionAllocLoop, halloc, ok_bind, hins]
  · rintro ⟨σ₂, h, hloop⟩
    obtain ⟨⟨p, σ₁⟩, halloc, hrest⟩ := bind_eq_ok.mp h
    cases p with
    | none => cases hrest
    | some p =>
      obtain ⟨⟨r, σ₃⟩, hins, hlast⟩ := bind_eq_ok.mp hrest
      obtain rfl := Except.ok.inj hlast
      rw [Jos.regionAllocLoop]
      simp only [halloc, ok_bind, hins, hloop]

/-- One page, of which nothing is written yet. -/
theorem mapPage (h : ImageInv B e O c efree σ₀ H σ free M) (hva : va < utop)
    (hH : ∀ a, pgnum a = pgnum va → H a = none)
    (hrun : Jos.regionAllocLoop B cpu e 1 va σ = .ok σ') (hsome : σ'.pageFreeList ≠ none) :
    ∃ free', ImageInv B e O c efree σ₀ H σ' free' (insert (pgnum va) M) := by
  obtain ⟨-, hfail⟩ | ⟨σ₁, free₁, hstep, h₁⟩ | ⟨p, σ₁, -, -, hstep, hnone, -⟩ :=
    h.toLoadInv.allocPage hva cpu 0
  · rw [hfail] at hrun
    cases hrun
  · obtain rfl := Except.ok.inj (hstep.symm.trans hrun)
    refine ⟨free₁, h₁, h.apart.trans (h.toLoadInv.mapPage_apart hva hrun), fun a v ha hv => ?_⟩
    refine h.toLoadInv.mapPage_userMemory hva hrun ha (fun hc => ?_) (h.contents a v ha hv)
    rw [hH a hc] at hv
    cases hv
  · obtain rfl := Except.ok.inj (hstep.symm.trans hrun)
    exact absurd hnone hsome

/-- The loop of `region_alloc`, on pages of which nothing is written yet. -/
theorem regionAllocLoop {n : ℕ} (h : ImageInv B e O c efree σ₀ H σ free M)
    (hva : va.toNat + n * 4096 ≤ utop.toNat)
    (hH : ∀ a, pgnum a ∈ Finset.Ico (pgnum va) (pgnum va + n) → H a = none)
    (hrun : Jos.regionAllocLoop B cpu e n va σ = .ok σ') (hsome : σ'.pageFreeList ≠ none) :
    ∃ free', ImageInv B e O c efree σ₀ H σ' free'
      (M ∪ Finset.Ico (pgnum va) (pgnum va + n)) := by
  induction n generalizing σ free M va with
  | zero =>
    obtain rfl := Except.ok.inj hrun
    refine ⟨free, ?_⟩
    rwa [Nat.add_zero, Finset.Ico_self, Finset.union_empty]
  | succ n ih =>
    have hlt : va < utop := by
      rw [BitVec.lt_def]
      omega
    obtain ⟨hnext, hpg⟩ := pgnum_succ_of_lt_utop hlt
    obtain ⟨σ₁, hfirst, hrest⟩ := regionAllocLoop_succ.mp hrun
    -- if the pages had run out, they still would have
    have hsome₁ : σ₁.pageFreeList ≠ none := fun hc =>
      hsome (by rw [(regionAllocLoop_none hc hrest).2]; exact hc)
    have hpage : ∀ a, pgnum a = pgnum va → H a = none := fun a ha =>
      hH a (Finset.mem_Ico.mpr (by omega))
    obtain ⟨free₁, h₁⟩ := h.mapPage hlt hpage hfirst hsome₁
    rw [← insert_union_Ico, ← hpg]
    refine ih h₁ (by omega) (fun a ha => hH a ?_) hrest
    rw [Finset.mem_Ico] at ha ⊢
    omega

/-- `region_alloc`: what was on its pages is gone. -/
theorem regionAlloc {len : Word} (h : ImageInv B e O c efree σ₀ H σ free M) (hcr3 : InCr3 cpu e σ)
    (hend : va.toNat + len.toNat ≤ utop.toNat)
    (hrun : Jos.regionAlloc B cpu e va len σ = .ok σ') (hsome : σ'.pageFreeList ≠ none) :
    ∃ free', ImageInv B e O c efree σ₀
      (fun a => if pgnum a ∈ Finset.Ico (va.toNat / 4096) ((va.toNat + len.toNat + 4095) / 4096)
        then none else H a) σ' free'
      (M ∪ Finset.Ico (va.toNat / 4096) ((va.toNat + len.toNat + 4095) / 4096)) ∧
      InCr3 cpu e σ' := by
  obtain ⟨hbelow, hfirst, hlast⟩ := regionAlloc_pages hend
  set pages := Finset.Ico (va.toNat / 4096) ((va.toNat + len.toNat + 4095) / 4096) with hpages
  -- nothing is promised of the pages that are mapped anew
  have hcleared : ImageInv B e O c efree σ₀ (fun a => if pgnum a ∈ pages then none else H a)
      σ free M := by
    refine h.mono fun a v _ hv => ?_
    split at hv
    · cases hv
    · exact hv
  obtain ⟨free₁, h₁⟩ := hcleared.regionAllocLoop hbelow (fun a ha => if_pos (by
    rwa [hfirst, hlast] at ha)) hrun hsome
  rw [hfirst, hlast] at h₁
  obtain ⟨⟨henvs, -, -⟩, hsame⟩ := regionAllocLoop_frame hrun
  refine ⟨free₁, h₁, ?_⟩
  rw [InCr3, henvs, hsame]
  exact hcr3

end ImageInv

/-! ### The segments -/

section Program

variable {image : Word → Byte} {binary : Word} {ph : Proghdr} {l : List Proghdr}

/-- What a segment makes of the memory of its environment: on its pages there are the bytes of
the file, and zeros behind them. The rest of the pages is of no account. -/
def segmentLayer (image : Word → Byte) (binary : Word) (ph : Proghdr) :
    Layer Word (Option Byte) where
  covers a := pgnum a ∈ segmentPages ph
  value a :=
    let k := (a - ph.pVa).toNat
    if k < ph.pFilesz.toNat then some (image (binary + ph.pOffset + BitVec.ofNat 32 k))
    else if k < ph.pMemsz.toNat then some 0#8 else none

/-- The memory of an environment once its segments are loaded. -/
def programMemory (image : Word → Byte) (binary : Word) (l : List Proghdr) (H : Memory) : Memory :=
  Layer.putAll (l.map (segmentLayer image binary)) H

theorem imageBytes_getElem? (image : Word → Byte) (a : Word) (n k : ℕ) :
    (imageBytes image a n)[k]? = if k < n then some (image (a + BitVec.ofNat 32 k)) else none := by
  rw [imageBytes, List.getElem?_map]
  by_cases hk : k < n
  · rw [List.getElem?_range hk, if_pos hk]
    rfl
  · rw [List.getElem?_eq_none (by simpa using hk), if_neg hk]
    rfl

/-- `memcpy` and `memset` leave what the segment describes. -/
theorem segmentLayer_put (htype : ph.pType = elfProgLoad)
    (hend : ph.pVa.toNat + ph.pMemsz.toNat ≤ utop.toNat) (hle : ph.pFilesz ≤ ph.pMemsz)
    {v : Byte} (hv : (segmentLayer image binary ph).put H a = some v) :
    writeBytes (List.replicate (ph.pMemsz - ph.pFilesz).toNat 0#8) (ph.pVa + ph.pFilesz)
      (writeBytes (imageBytes image (binary + ph.pOffset) ph.pFilesz.toNat) ph.pVa
        fun a => if pgnum a ∈ segmentPages ph then none else H a) a = some v := by
  obtain ⟨hfile, hrest, hsize⟩ := Proghdr.parts_toNat hend hle
  have htop : utop.toNat < 2 ^ 32 := utop.isLt
  have hva := ph.pVa.isLt
  have ha := a.isLt
  set k := (a - ph.pVa).toNat with hk
  have hkval : k = (2 ^ 32 - ph.pVa.toNat + a.toNat) % 2 ^ 32 := BitVec.toNat_sub _ _
  -- where the byte is for `memset`
  have hj : (a - (ph.pVa + ph.pFilesz)).toNat =
      (2 ^ 32 - (ph.pVa.toNat + ph.pFilesz.toNat) + a.toNat) % 2 ^ 32 := by
    rw [BitVec.toNat_sub, hfile]
  simp only [writeBytes, imageBytes_getElem?, List.getElem?_replicate, hrest, ← hk]
  by_cases hpage : pgnum a ∈ segmentPages ph
  · simp only [Layer.put, segmentLayer, hpage, decide_true, if_true, ← hk] at hv
    by_cases hkf : k < ph.pFilesz.toNat
    · rw [if_pos hkf] at hv
      rw [if_neg (by omega), if_pos hkf, hv]
      rfl
    · rw [if_neg hkf] at hv
      by_cases hkm : k < ph.pMemsz.toNat
      · rw [if_pos hkm] at hv
        rw [if_pos (by omega), hv]
        rfl
      · rw [if_neg hkm] at hv
        cases hv
  · have hout : ¬k < ph.pMemsz.toNat := by
      intro hkm
      refine hpage ?_
      rw [segmentPages, if_pos htype, Finset.mem_Ico, pgnum_eq]
      omega
    simp only [Layer.put, segmentLayer, hpage, decide_false, Bool.false_eq_true, if_false] at hv
    rw [if_neg (by omega), if_neg (by omega), if_neg hpage, hv]
    rfl

/-- One segment. -/
theorem ImageInv.placeSegment (h : ImageInv B e O c efree σ₀ H σ free M) (hcr3 : InCr3 cpu e σ)
    (hph : ph.pType = elfProgLoad →
      ph.pVa.toNat + ph.pMemsz.toNat ≤ utop.toNat ∧ ph.pFilesz ≤ ph.pMemsz)
    (hrun : placeSegment B cpu e image binary σ ph = .ok σ') (hsome : σ'.pageFreeList ≠ none) :
    ∃ free', ImageInv B e O c efree σ₀ ((segmentLayer image binary ph).put H) σ' free'
      (M ∪ segmentPages ph) ∧ InCr3 cpu e σ' := by
  unfold Jos.placeSegment at hrun
  by_cases htype : ph.pType = elfProgLoad
  · rw [if_pos htype] at hrun
    obtain ⟨hend, hle⟩ := hph htype
    obtain ⟨hfile, hrest, hsize⟩ := Proghdr.parts_toNat hend hle
    obtain ⟨σ₁, hregion, hrun⟩ := bind_eq_ok.mp hrun
    obtain ⟨σ₂, hcopy, hclear⟩ := bind_eq_ok.mp hrun
    have hsome₁ : σ₁.pageFreeList ≠ none := by
      rwa [← storeBytes_list hcopy, ← storeBytes_list hclear]
    have hpages : segmentPages ph = _ := if_pos htype
    obtain ⟨free₁, h₁, hcr3₁⟩ := h.regionAlloc hcr3 hend hregion hsome₁
    rw [← hpages] at h₁
    have hbyte : ∀ k < ph.pMemsz.toNat, (ph.pVa.toNat + k) / 4096 ∈ M ∪ segmentPages ph := by
      intro k hk
      rw [hpages, Finset.mem_union, Finset.mem_Ico]
      right
      omega
    have hlen : (imageBytes image (binary + ph.pOffset) ph.pFilesz.toNat).length =
        ph.pFilesz.toNat := by
      rw [imageBytes, List.length_map, List.length_range]
    obtain ⟨h₂, hcr3₂⟩ := h₁.storeBytes hcr3₁ (by omega) (fun k hk => hbyte k (by omega)) hcopy
    obtain ⟨h₃, hcr3₃⟩ := h₂.storeBytes hcr3₂ (by rw [List.length_replicate, hfile, hrest]; omega)
      (fun k hk => by
        rw [List.length_replicate, hrest] at hk
        rw [hfile, Nat.add_assoc]
        exact hbyte _ (by omega)) hclear
    exact ⟨free₁, h₃.mono fun a v _ hv => segmentLayer_put htype hend hle hv, hcr3₃⟩
  · -- other segments are skipped
    rw [if_neg htype] at hrun
    obtain rfl := Except.ok.inj hrun
    have hpages : segmentPages ph = ∅ := if_neg htype
    refine ⟨free, ?_, hcr3⟩
    rw [hpages, Finset.union_empty]
    refine h.mono fun a v _ hv => ?_
    simpa [Layer.put, segmentLayer, hpages] using hv

/-- All segments, the later ones over the earlier ones. -/
theorem ImageInv.placeSegments (h : ImageInv B e O c efree σ₀ H σ free M) (hcr3 : InCr3 cpu e σ)
    (hl : ∀ ph ∈ l, ph.pType = elfProgLoad →
      ph.pVa.toNat + ph.pMemsz.toNat ≤ utop.toNat ∧ ph.pFilesz ≤ ph.pMemsz)
    (hrun : l.foldlM (Jos.placeSegment B cpu e image binary) σ = .ok σ')
    (hsome : σ'.pageFreeList ≠ none) :
    ∃ free', ImageInv B e O c efree σ₀ (programMemory image binary l H) σ' free'
      (M ∪ programPages l) ∧ InCr3 cpu e σ' := by
  induction l generalizing σ free M H with
  | nil =>
    obtain rfl := Except.ok.inj hrun
    refine ⟨free, ?_, hcr3⟩
    rwa [programPages, List.foldr_nil, Finset.union_empty]
  | cons ph l ih =>
    rw [List.foldlM_cons] at hrun
    obtain ⟨σ₁, hfirst, hrest⟩ := bind_eq_ok.mp hrun
    have hset : M ∪ programPages (ph :: l) = M ∪ segmentPages ph ∪ programPages l := by
      rw [programPages, List.foldr_cons, ← Finset.union_assoc]
      rfl
    -- nothing after this segment puts a page back
    have hsome₁ : σ₁.pageFreeList ≠ none := fun hc => hsome (placeSegments_none hc hrest)
    obtain ⟨free₁, h₁, hcr3₁⟩ := h.placeSegment hcr3 (hl ph List.mem_cons_self) hfirst hsome₁
    rw [hset]
    exact ih h₁ hcr3₁ (fun ph' hph' => hl ph' (List.mem_cons_of_mem _ hph')) hrest

theorem userMemory_of_sameSpaces (h : SameSpaces σ σ') : userMemory σ' e = userMemory σ e := by
  funext a
  simp only [userMemory, translate, x86Walk, h.pgdir, h.mem]

theorem ImageInv.of_sameSpaces (h : ImageInv B e O c efree σ₀ H σ free M) (hs : SameSpaces σ σ')
    (he : ∀ e', e' ≠ e → σ'.envs e' = σ.envs e') : ImageInv B e O c efree σ₀ H σ' free M where
  toLoadInv := h.toLoadInv.of_sameSpaces hs
  apart := h.apart.trans (.of_sameSpaces hs he)
  contents := by
    rw [userMemory_of_sameSpaces hs]
    exact h.contents

/-- `load_icode` around its loop. The loop starts with nothing written and does not use up the
pages, and what holds after it holds, but for the page of the stack, when `load_icode` returns. -/
theorem LoadInv.placeImage_loop (h : LoadInv B e O c efree σ free ∅)
    (hrun : Jos.placeImage B cpu e image binary σ = .ok σ') :
    ∃ σ₀ σ₁, ImageInv B e O c efree σ (fun _ => none) σ₀ free ∅ ∧ InCr3 cpu e σ₀ ∧
      (proghdrs image binary).foldlM (Jos.placeSegment B cpu e image binary) σ₀ = .ok σ₁ ∧
      σ₁.pageFreeList ≠ none ∧
      ∀ H free₁ M, ImageInv B e O c efree σ H σ₁ free₁ M → Apart B e σ σ' ∧
        (σ'.envs e).envTf.tfEip = imageValue image (binary + 24#32) 4 ∧
        ∀ a v, a < utop → pgnum a ≠ pgnum (ustacktop - pgsize) → H a = some v →
          userMemory σ' e a = some v := by
  obtain ⟨pa, hpa, hrun⟩ := bind_eq_ok.mp hrun
  obtain ⟨σ₁, hsegments, hrun⟩ := bind_eq_ok.mp hrun
  obtain ⟨pa', -, hstack⟩ := bind_eq_ok.mp hrun
  obtain ⟨-, rfl⟩ := paddr_eq_ok.mp hpa
  set entry := imageValue image (binary + 24#32) 4
  have hstart : ImageInv B e O c efree σ (fun _ => none)
      (lcr3 cpu ((σ.envs e).envPgdir - kernbase) σ) free ∅ :=
    ⟨h.of_sameSpaces (.cpus rfl), .of_sameSpaces (.cpus rfl) fun _ _ => rfl,
      fun _ _ _ hv => by cases hv⟩
  have hcr3 : InCr3 cpu e (lcr3 cpu ((σ.envs e).envPgdir - kernbase) σ) := by
    simp only [InCr3, lcr3, State.setCpu, Function.update_self, frameAt]
  -- a segment that had used up the pages would have left none for the stack
  refine ⟨_, σ₁, hstart, hcr3, hsegments, fun hc => pageFreeList_of_stack hstack hc,
    fun H free₁ M h₁ => ?_⟩
  have h₂ := h₁.of_sameSpaces (sameSpaces_setEntry h₁.live cpu entry pa') fun e' he' =>
    Function.update_of_ne he' _ _
  rw [regionAlloc_stack] at hstack
  have hva : ustacktop - pgsize < utop := by decide
  refine ⟨h₂.apart.trans (h₂.toLoadInv.mapPage_apart hva hstack), ?_, fun a v ha hne hv => ?_⟩
  · rw [(regionAllocLoop_frame hstack).1.envs]
    change ((setEntry e entry σ₁).envs e).envTf.tfEip = entry
    rw [setEntry, setEnv_envs_self]
  · exact h₂.toLoadInv.mapPage_userMemory hva hstack ha hne (h₂.contents a v ha hv)

/-- What `load_icode` has done when it returns. -/
theorem LoadInv.placeImage_effect (h : LoadInv B e O c efree σ free ∅)
    (himage : Loadable image binary) (hrun : Jos.placeImage B cpu e image binary σ = .ok σ') :
    Apart B e σ σ' ∧
    (σ'.envs e).envTf.tfEip = imageValue image (binary + 24#32) 4 ∧
    ∀ a v, a < utop → pgnum a ≠ pgnum (ustacktop - pgsize) →
      programMemory image binary (proghdrs image binary) (fun _ => none) a = some v →
      userMemory σ' e a = some v := by
  obtain ⟨σ₀, σ₁, hstart, hcr3, hsegments, hsome, hend⟩ := h.placeImage_loop hrun
  obtain ⟨free₁, h₁, -⟩ := hstart.placeSegments hcr3 himage hsegments hsome
  exact hend _ _ _ h₁

end Program

end Jos
