import Jos.Memory.LoadImage

/-!
# `load_icode` builds the image of the program

A program is well-formed (`WellFormed`) if its headers and the bytes of its segments are in the
image, and its segments are on pages of their own below the stack. `placeImage_builds` says what a
new environment is then given, provided that there are enough free pages: at the addresses of its
segments the bytes of the file with zeros behind them, a stack, and nothing else (`ImageBuilt`).
The pages are counted in `pagesNeeded`.

The rest of the module is about everybody else. From `Apart` it follows that they see no
difference, neither in their page tables nor in their memory.
-/

namespace Jos

variable {B : Boot} {σ σ' σ₀ : State} {cpu c : ℕ} {e e' : Fin nenv} {free : List ℕ}
  {efree : List (Fin nenv)} {O : Set ℕ} {M : Finset ℕ} {a : Word} {t : ℕ}
  {image : Word → Byte} {binary : Word} {size : ℕ}

/-! ### What other environments see -/

namespace Apart

/-- The page tables at and above `UTOP` are the kernel's. -/
theorem mem_upperTable (h : Apart B e σ σ') {k : Fin 1024} (hk : k ≠ pdx uvpt)
    {u : ℕ × BitVec 12} (hu : entryOf (σ.mem B.kernFrame k) = some u) : σ'.mem u.1 = σ.mem u.1 :=
  h.mem _ (Or.inr ⟨.pde none k, by simp [Slot.owner], Separated.slotRef_pde rfl hk hu⟩)

variable (h : Apart B e σ σ') (hinv : MemInv B σ free efree) (hne : e' ≠ e) (hlive : Live σ e')
include h hinv hne hlive

theorem mem_dir : σ'.mem (frameAt (σ.envs e').envPgdir) = σ.mem (frameAt (σ.envs e').envPgdir) := by
  refine h.mem _ (Or.inr ⟨.dir e', by simpa [Slot.owner] using hne, ?_⟩)
  rw [slotRef_dir, hinv.env.dirFrame_live hlive]

/-- The page tables of another environment, with those it shares with the kernel. -/
theorem mem_table (hw : Window B σ t) {k : Fin 1024} {u : ℕ × BitVec 12}
    (hu : entryOf (σ.mem (frameAt (σ.envs e').envPgdir) k) = some u) :
    σ'.mem u.1 = σ.mem u.1 := by
  have hd := hinv.env.dirFrame_live (B := B) hlive
  by_cases hlow : k.val < 955
  · exact h.mem _ (Or.inr ⟨.pde (some e') k, by simpa [Slot.owner] using hne,
      Separated.slotRef_pde hd (tracked_of_lt hlow _) hu⟩)
  · by_cases huvpt : k = pdx uvpt
    · -- the directory is its own page table
      rw [huvpt, hw.own e' hlive] at hu
      obtain rfl := Option.some.inj hu
      exact h.mem_dir hinv hne hlive
    · rw [hw.copy e' hlive k (by omega) huvpt] at hu
      exact h.mem_upperTable huvpt hu

theorem translate_eq (hw : Window B σ t) (a : Word) : translate σ' e' a = translate σ e' a := by
  rw [translate, translate, x86Walk, x86Walk, h.envs e' hne, h.mem_dir hinv hne hlive]
  cases hu : entryOf (σ.mem (frameAt (σ.envs e').envPgdir) (pdx a)) with
  | none => rfl
  | some u => rw [Option.bind_some, Option.bind_some, h.mem_table hinv hne hlive hw hu]

theorem userMemory_eq (ha : a < utop) : userMemory σ' e' a = userMemory σ e' a := by
  have hd := hinv.env.dirFrame_live (B := B) hlive
  have hd' : dirFrame B σ' (some e') = some (frameAt (σ'.envs e').envPgdir) := by
    rw [h.dirs, h.envs e' hne, hd]
  have howner : (Slot.pte (some e') (pdx a) (ptx a)).owner ≠ some e := by
    simpa [Slot.owner] using hne
  rw [Jos.userMemory_eq hd' ha, Jos.userMemory_eq hd ha, h.slots _ howner]
  cases hs : Jos.slots B σ (.pte (some e') (pdx a) (ptx a)) with
  | none => rfl
  | some u =>
    have hmem := h.mem u.1 (Or.inr ⟨_, howner, by rw [slotRef, hs]; rfl⟩)
    rw [Option.map_some, Option.map_some, State.frameByte, State.frameByte, hmem]

end Apart

/-! ### Programs -/

/-- A well-formed program: `size` bytes of kernel memory at `binary`, with headers for segments
that have their own pages below the stack. -/
structure WellFormed (image : Word → Byte) (binary : Word) (size : ℕ) : Prop where
  kernel : utop ≤ binary
  ends : binary.toNat + size ≤ 2 ^ 32
  headers : (elfPhoff image binary).toNat + 32 * elfPhnum image binary ≤ size
  /-- There is an address behind the headers. -/
  headersEnd : binary.toNat + (elfPhoff image binary).toNat + 32 * elfPhnum image binary < 2 ^ 32
  filesz : ∀ i < elfPhnum image binary, (elfHeader image binary i).pType = elfProgLoad →
    (elfHeader image binary i).pFilesz ≤ (elfHeader image binary i).pMemsz
  /-- The bytes of the file are in the image. -/
  file : ∀ i < elfPhnum image binary, (elfHeader image binary i).pType = elfProgLoad →
    (elfHeader image binary i).pOffset.toNat + (elfHeader image binary i).pFilesz.toNat ≤ size
  below : ∀ i < elfPhnum image binary, (elfHeader image binary i).pType = elfProgLoad →
    (elfHeader image binary i).pVa.toNat + (elfHeader image binary i).pMemsz.toNat ≤
      (ustacktop - pgsize).toNat
  /-- No two segments have a page in common. -/
  disjoint : ∀ i j, i < j → j < elfPhnum image binary →
    Disjoint (segmentPages (elfHeader image binary i)) (segmentPages (elfHeader image binary j))

namespace WellFormed

theorem proghdrs_eq (h : WellFormed image binary size) :
    proghdrs image binary =
      (List.range (elfPhnum image binary)).map (elfHeader image binary) := by
  have hcount : headerCount (binary + elfPhoff image binary) (elfPhnum image binary) =
      elfPhnum image binary := by
    have hend := h.headersEnd
    unfold headerCount
    by_cases hnum : elfPhnum image binary = 0
    · simp [hnum]
    · -- the end of the headers does not wrap, so the loop begins
      have hstart : (binary + elfPhoff image binary).toNat =
          binary.toNat + (elfPhoff image binary).toNat := by
        rw [BitVec.toNat_add]
        omega
      refine if_pos ?_
      rw [BitVec.lt_def, BitVec.toNat_add (binary + _), hstart, BitVec.toNat_ofNat]
      omega
  unfold proghdrs
  rw [hcount]

theorem mem_proghdrs (h : WellFormed image binary size) {ph : Proghdr} :
    ph ∈ proghdrs image binary ↔
      ∃ i < elfPhnum image binary, elfHeader image binary i = ph := by
  simp [h.proghdrs_eq]

theorem loadable (h : WellFormed image binary size) : Loadable image binary := by
  intro ph hph htype
  obtain ⟨i, hi, rfl⟩ := h.mem_proghdrs.mp hph
  have hbelow := h.below i hi htype
  have hstack : (ustacktop - pgsize).toNat ≤ utop.toNat := by decide
  exact ⟨by omega, h.filesz i hi htype⟩

end WellFormed

/-- The virtual pages of a program: those of its segments, and the page of its stack. -/
def imagePages (image : Word → Byte) (binary : Word) : Finset ℕ :=
  insert (pgnum (ustacktop - pgsize)) (programPages (proghdrs image binary))

/-- The number of free pages that `load_icode` needs: for the pages of the program, and for their
page tables. -/
def pagesNeeded (image : Word → Byte) (binary : Word) : ℕ :=
  (imagePages image binary).card + (tablesOf (imagePages image binary)).card

/-- `e` has the image that the file describes, and nothing else has changed. -/
structure ImageBuilt (e : Fin nenv) (image : Word → Byte) (binary : Word) (σ σ' : State) :
    Prop where
  /-- The bytes of the file. -/
  file : ∀ i < elfPhnum image binary, (elfHeader image binary i).pType = elfProgLoad →
    ∀ k < (elfHeader image binary i).pFilesz.toNat,
      userMemory σ' e ((elfHeader image binary i).pVa + BitVec.ofNat 32 k) =
        some (image (binary + (elfHeader image binary i).pOffset + BitVec.ofNat 32 k))
  /-- The zeros behind them. -/
  zero : ∀ i < elfPhnum image binary, (elfHeader image binary i).pType = elfProgLoad →
    ∀ k, (elfHeader image binary i).pFilesz.toNat ≤ k →
      k < (elfHeader image binary i).pMemsz.toNat →
      userMemory σ' e ((elfHeader image binary i).pVa + BitVec.ofNat 32 k) = some 0#8
  /-- The pages, with the permissions at both levels, and their counters. -/
  mapped : ∀ a : Word, pgnum a ∈ imagePages image binary →
    ∃ p, translate σ' e a = some ((pteP ||| pteU ||| pteW).setWidth 12,
      (pteP ||| pteU ||| pteW).setWidth 12, p) ∧ σ'.ref p = 1#16
  nothingElse : ∀ a : Word, a < utop → pgnum a ∉ imagePages image binary →
    translate σ' e a = none
  entry : (σ'.envs e).envTf.tfEip = imageValue image (binary + 24#32) 4
  others : ∀ e', e' ≠ e → σ'.envs e' = σ.envs e' ∧ (Live σ e' → ∀ a,
    translate σ' e' a = translate σ e' a ∧ (a < utop → userMemory σ' e' a = userMemory σ e' a))

/-! ### What the new environment sees -/

/-- A segment is not loaded over, so each of its bytes is the one that it describes. -/
theorem WellFormed.programMemory_eq (h : WellFormed image binary size) {i : ℕ}
    (hi : i < elfPhnum image binary) (hpage : pgnum a ∈ segmentPages (elfHeader image binary i)) :
    programMemory image binary (proghdrs image binary) (fun _ => none) a =
      (segmentLayer image binary (elfHeader image binary i)).value a := by
  rw [programMemory, h.proghdrs_eq]
  refine Layer.putAll_of_last (j := i) ⟨?_, ?_, fun k l hk hl => ?_⟩
  · simp [hi]
  · simpa [segmentLayer] using hpage
  · obtain ⟨hlt, rfl⟩ : k < elfPhnum image binary ∧
        segmentLayer image binary (elfHeader image binary k) = l := by
      simpa [List.getElem?_eq_some_iff] using hl
    have hdis := Finset.disjoint_left.mp (h.disjoint i k hk hlt) hpage
    simpa [segmentLayer] using hdis

/-- The address of byte `k` of a segment. -/
theorem WellFormed.segment_addr (h : WellFormed image binary size) {i k : ℕ}
    (hi : i < elfPhnum image binary) (htype : (elfHeader image binary i).pType = elfProgLoad)
    (hk : k < (elfHeader image binary i).pMemsz.toNat) :
    ((elfHeader image binary i).pVa + BitVec.ofNat 32 k).toNat =
        (elfHeader image binary i).pVa.toNat + k ∧
      pgnum ((elfHeader image binary i).pVa + BitVec.ofNat 32 k) ∈
        segmentPages (elfHeader image binary i) := by
  have hbelow := h.below i hi htype
  have hstack : (ustacktop - pgsize).toNat < 2 ^ 32 := BitVec.isLt _
  have haddr : ((elfHeader image binary i).pVa + BitVec.ofNat 32 k).toNat =
      (elfHeader image binary i).pVa.toNat + k := by
    rw [BitVec.toNat_add, BitVec.toNat_ofNat]
    omega
  refine ⟨haddr, ?_⟩
  rw [segmentPages, if_pos htype, Finset.mem_Ico, pgnum_eq, haddr]
  omega

/-- The pages of the segments are below the page of the stack. -/
theorem WellFormed.page_lt (h : WellFormed image binary size) {n : ℕ}
    (hn : n ∈ programPages (proghdrs image binary)) : n < pgnum (ustacktop - pgsize) := by
  obtain ⟨ph, hph, hpage⟩ := mem_programPages.mp hn
  obtain ⟨i, hi, rfl⟩ := h.mem_proghdrs.mp hph
  unfold segmentPages at hpage
  split at hpage
  · next htype =>
    have hbelow := h.below i hi htype
    rw [show (ustacktop - pgsize).toNat = 0xEEBFD000 from rfl] at hbelow
    rw [Finset.mem_Ico] at hpage
    rw [show pgnum (ustacktop - pgsize) = 0xEEBFD from rfl]
    omega
  · exact absurd hpage (Finset.notMem_empty _)

theorem WellFormed.stack_notMem (h : WellFormed image binary size) :
    pgnum (ustacktop - pgsize) ∉ programPages (proghdrs image binary) :=
  fun hmem => lt_irrefl _ (h.page_lt hmem)

/-- All pages of the program are below `UTOP`. -/
theorem WellFormed.lt_utop (h : WellFormed image binary size)
    (ha : pgnum a ∈ imagePages image binary) : a < utop := by
  have hle : pgnum a ≤ pgnum (ustacktop - pgsize) := by
    rcases Finset.mem_insert.mp ha with heq | hmem
    · exact heq.le
    · exact (h.page_lt hmem).le
  rw [pgnum_eq, show pgnum (ustacktop - pgsize) = 0xEEBFD from rfl] at hle
  rw [BitVec.lt_def, show utop.toNat = 0xEEC00000 from rfl]
  omega

/-- Nothing is found where no page is mapped. -/
theorem LoadInv.translate_none (h : LoadInv B e O c efree σ free M) (ha : a < utop)
    (hnot : pgnum a ∉ M) : translate σ e a = none := by
  have hpte := h.loaded.pte (pdx a) (ptx a)
  rw [← pgnum_split, if_neg hnot, Option.map_eq_none_iff] at hpte
  rw [translate, x86Walk]
  cases ht : entryOf (σ.mem (frameAt (σ.envs e).envPgdir) (pdx a)) with
  | none => rfl
  | some t =>
    rw [slots_pte h.dir ((lt_utop_iff a).mp ha) ht] at hpte
    rw [Option.bind_some, hpte]
    rfl

/-- So every byte of a segment is there. -/
theorem WellFormed.programMemory_segment (h : WellFormed image binary size) {i k : ℕ}
    (hi : i < elfPhnum image binary) (htype : (elfHeader image binary i).pType = elfProgLoad)
    (hk : k < (elfHeader image binary i).pMemsz.toNat) :
    programMemory image binary (proghdrs image binary) (fun _ => none)
        ((elfHeader image binary i).pVa + BitVec.ofNat 32 k) =
      some (if k < (elfHeader image binary i).pFilesz.toNat then
        image (binary + (elfHeader image binary i).pOffset + BitVec.ofNat 32 k) else 0#8) := by
  obtain ⟨haddr, hpage⟩ := h.segment_addr hi htype hk
  have hoff : ((elfHeader image binary i).pVa + BitVec.ofNat 32 k -
      (elfHeader image binary i).pVa).toNat = k := by
    have hlt := (elfHeader image binary i).pMemsz.isLt
    rw [BitVec.add_comm, BitVec.add_sub_cancel, BitVec.toNat_ofNat]
    omega
  rw [h.programMemory_eq hi hpage]
  simp only [segmentLayer, hoff, hk, if_true]
  split <;> rfl

/-- With enough pages `load_icode` returns, and all pages are mapped. -/
theorem LoadInv.placeImage_enough (h : LoadInv B e O c efree σ free ∅)
    (himage : WellFormed image binary size) (henough : pagesNeeded image binary ≤ c) (cpu : ℕ) :
    ∃ σ' free', Jos.placeImage B cpu e image binary σ = .ok σ' ∧
      LoadInv B e O c efree σ' free' (imagePages image binary) := by
  have hnew := himage.stack_notMem
  rw [pagesNeeded, imagePages] at henough
  obtain hok | ⟨σ', -, hcount, htable, -⟩ | ⟨-, hused⟩ := h.placeImage himage.loadable cpu
  · exact hok
  · -- the page table of the stack would have been missing
    rw [card_insert_new htable] at henough
    omega
  · have hle := card_add_card_le (Finset.subset_insert (pgnum (ustacktop - pgsize))
      (programPages (proghdrs image binary)))
    rw [Finset.card_insert_of_notMem hnew] at henough
    have htables := Finset.card_le_card (Finset.image_subset_image (f := (· / 1024))
      (Finset.subset_insert (pgnum (ustacktop - pgsize)) (programPages (proghdrs image binary))))
    unfold tablesOf at henough hused
    omega

/-- `load_icode` builds the image that the program describes. -/
theorem placeImage_builds (h : UpperInv B σ₀) {parentId : Word}
    (hal : envAlloc B parentId σ₀ = .ok (0, some e, σ)) (himage : WellFormed image binary size)
    (hfree : Chain σ.link σ.pageFreeList free) (henough : pagesNeeded image binary ≤ free.length)
    (cpu : ℕ) :
    ∃ σ', placeImage B cpu e image binary σ = .ok σ' ∧ ImageBuilt e image binary σ σ' := by
  obtain ⟨t, free₀, efree₀, hinv₀, hw₀⟩ := h
  obtain ⟨rest, p, free', rfl, rfl, hinv, halloc⟩ := hinv₀.envAlloc_zero hal
  have hload := LoadInv.of_envAllocated hinv₀ hinv halloc
  have hw : Window B σ t := hw₀.of_envAllocated hinv₀ List.mem_cons_self halloc
  obtain rfl := hinv.page.chain.unique hfree
  obtain ⟨σ', free', hrun, hfinal⟩ := hload.placeImage_enough himage henough cpu
  obtain ⟨hapart, hentry, hbytes⟩ := hload.placeImage_effect himage.loadable hrun
  -- a byte of a segment is below `UTOP`, and not on the stack
  have hbyte (i : ℕ) (hi : i < elfPhnum image binary)
      (htype : (elfHeader image binary i).pType = elfProgLoad) (k : ℕ)
      (hk : k < (elfHeader image binary i).pMemsz.toNat) := by
    obtain ⟨haddr, hpage⟩ := himage.segment_addr hi htype hk
    have hbelow := himage.below i hi htype
    have hstack : (ustacktop - pgsize).toNat ≤ utop.toNat := by decide
    refine hbytes _ _ ?_ (fun hc => ?_) (himage.programMemory_segment hi htype hk)
    · rw [BitVec.lt_def]
      omega
    · rw [hc] at hpage
      exact himage.stack_notMem
        (mem_programPages.mpr ⟨_, himage.mem_proghdrs.mpr ⟨i, hi, rfl⟩, hpage⟩)
  refine ⟨σ', hrun, fun i hi htype k hk => ?_, fun i hi htype k hf hk => ?_, fun a ha => ?_,
    fun a ha hnot => ?_, hentry, fun e' hne => ⟨hapart.envs e' hne, fun hlive a => ⟨?_, ?_⟩⟩⟩
  · have hle : (elfHeader image binary i).pFilesz.toNat ≤
        (elfHeader image binary i).pMemsz.toNat := himage.filesz i hi htype
    rw [hbyte i hi htype k (by omega), if_pos hk]
  · rw [hbyte i hi htype k hk, if_neg (by omega)]
  · have hva : a < utop := himage.lt_utop ha
    obtain ⟨q, htr, href⟩ := hfinal.translate_eq hva ha
    exact ⟨q, htr, hfinal.ref_eq_one rfl href⟩
  · exact hfinal.translate_none ha hnot
  · exact hapart.translate_eq hinv hne hlive hw a
  · exact hapart.userMemory_eq hinv hne hlive

end Jos
