import Jos.Memory.LoadSteps

/-!
# `load_icode` places the image that is in kernel memory

The programs that the kernel runs are part of the kernel image: they lie above `UTOP`, where all
page directories are the same, in frames that are reserved at boot (`HoldsImage`). Loading such a
program does not change it. So what `load_icode` reads is the image as it was, and what it does is
`placeImage` (`loadIcode_refines`): the two return the same state, or panic alike.

The results about `placeImage` and `placeEnv` are then results about `load_icode`
(`loadIcode_builds`) and `env_create` (`envCreate_loads_iff`).
-/

namespace Jos

variable {V : Variables} {B : Boot} {σ σ' σ₀ σ₁ : State} {cpu c n d : ℕ} {e : Fin nenv}
  {free : List ℕ} {efree : List (Fin nenv)} {O : Set ℕ} {M : Finset ℕ}
  {image : Word → Byte} {binary a va src dst ph : Word} {size : ℕ}

/-! ### The image in kernel memory -/

/-- The page directory in frame `d` has at and above `UTOP` what `kern_pgdir` has. -/
def Mirrors (B : Boot) (σ : State) (d : ℕ) : Prop :=
  ∀ k : Fin 1024, 955 ≤ k.val → k ≠ pdx uvpt → σ.mem d k = σ.mem B.kernFrame k

/-- The byte at `a` is in kernel memory: it is above `UTOP`, in a frame that is reserved at boot,
and it does not change when that frame does not. -/
structure InKernel (V : Variables) (B : Boot) (σ : State) (image : Word → Byte) (a : Word) :
    Prop where
  above : utop ≤ a
  outside : pdx a ≠ pdx uvpt
  found : ∃ f w, kernelAccess σ B.kernFrame a = some (f, w) ∧ ¬B.Managed f ∧
    ∀ τ : State, τ.mem f = σ.mem f → kernelByte V τ f (pgoff a) = image a

/-- The addresses that `load_icode` reads. -/
inductive ImageByte (image : Word → Byte) (binary : Word) : Word → Prop
  | header (k : ℕ) : k < 52 → ImageByte image binary (binary + BitVec.ofNat 32 k)
  | programHeader (i k : ℕ) : i < headerCount (binary + elfPhoff image binary)
      (elfPhnum image binary) → k < 32 →
    ImageByte image binary (binary + elfPhoff image binary + BitVec.ofNat 32 (32 * i) +
      BitVec.ofNat 32 k)
  | file (ph : Proghdr) (k : ℕ) : ph ∈ proghdrs image binary → ph.pType = elfProgLoad →
    k < ph.pFilesz.toNat → ImageByte image binary (binary + ph.pOffset + BitVec.ofNat 32 k)

/-- The program `image` is in kernel memory. -/
def HoldsImage (V : Variables) (B : Boot) (σ : State) (image : Word → Byte) (binary : Word) :
    Prop := ∀ a, ImageByte image binary a → InKernel V B σ image a

/-- The page directory of `e` stays a copy. -/
theorem Mirrors.of_apart (h : Mirrors B σ d) (hd : dirFrame B σ (some e) = some d)
    (hap : Apart B e σ σ') : Mirrors B σ' d := by
  intro k hk hout
  -- what is apart from `e` includes the upper part of every directory
  rw [hap.upper _ d hd k hk, hap.upper none B.kernFrame rfl k hk, h k hk hout]

namespace InKernel

/-- It is read through every directory that has the same there as that of the kernel. -/
theorem loadByte (h : InKernel V B σ image a)
    (hd : σ.mem (pgnum (σ.cpus cpu).cr3) (pdx a) = σ.mem B.kernFrame (pdx a)) :
    loadByte V cpu a σ = .ok (image a) := by
  obtain ⟨f, w, haccess, -, hbyte⟩ := h.found
  have hsame : kernelAccess σ (pgnum (σ.cpus cpu).cr3) a = kernelAccess σ B.kernFrame a := by
    rw [kernelAccess, kernelAccess, x86Walk, x86Walk, hd]
  rw [Jos.loadByte, hsame, haccess]
  exact congrArg Except.ok (hbyte σ rfl)

/-- A directory that mirrors that of the kernel has. -/
theorem pde_eq (h : InKernel V B σ image a) (hd : Mirrors B σ d) :
    σ.mem d (pdx a) = σ.mem B.kernFrame (pdx a) := by
  refine hd _ ?_ h.outside
  rw [← not_lt, ← lt_utop_iff, BitVec.not_lt]
  exact h.above

/-- Loading does not change it. -/
theorem of_apart (h : InKernel V B σ image a) (hap : Apart B e σ σ') : InKernel V B σ' image a := by
  obtain ⟨f, w, haccess, hf, hbyte⟩ := h.found
  -- `kern_pgdir` and its page tables are no pages of `e`
  have hkern : σ'.mem B.kernFrame = σ.mem B.kernFrame :=
    hap.mem _ (.inl fun hc => hc.ne_kernFrame rfl)
  have hwalk : kernelAccess σ' B.kernFrame a = kernelAccess σ B.kernFrame a := by
    rw [kernelAccess, kernelAccess, x86Walk, x86Walk, hkern]
    cases hu : entryOf (σ.mem B.kernFrame (pdx a)) with
    | none => rfl
    | some u => rw [Option.bind_some, Option.bind_some, hap.mem_upperTable h.outside hu]
  have hframe : σ'.mem f = σ.mem f := hap.mem f (.inl hf)
  exact ⟨h.above, h.outside, f, w, hwalk.trans haccess, hf,
    fun τ hτ => hbyte τ (hτ.trans hframe)⟩

theorem of_mem (h : InKernel V B σ image a) (hmem : σ'.mem = σ.mem) :
    InKernel V B σ' image a := by
  obtain ⟨f, w, haccess, hf, hbyte⟩ := h.found
  refine ⟨h.above, h.outside, f, w, ?_, hf, fun τ hτ => hbyte τ ?_⟩
  · rw [← haccess, kernelAccess, kernelAccess, x86Walk, x86Walk, hmem]
  · rw [hτ, hmem]

end InKernel

/-! ### What is read -/

theorem imageBytes_succ (image : Word → Byte) (a : Word) (n : ℕ) :
    imageBytes image a (n + 1) = image a :: imageBytes image (a + 1#32) n := by
  rw [imageBytes, List.range_succ_eq_map, List.map_cons, List.map_map, imageBytes]
  congr 1
  · rw [BitVec.add_zero]
  · refine List.map_congr_left fun k _ => ?_
    change image (a + BitVec.ofNat 32 (k + 1)) = image (a + 1#32 + BitVec.ofNat 32 k)
    rw [BitVec.add_assoc, ← BitVec.ofNat_add, Nat.add_comm 1 k]

/-- The value of bytes that can be read. -/
theorem loadValue_of_bytes
    (h : ∀ k < n, loadByte V cpu (a + BitVec.ofNat 32 k) σ = .ok (image (a + BitVec.ofNat 32 k))) :
    loadValue V cpu n a σ =
      .ok ((imageBytes image a n).foldr (fun b v => b.toNat + 256 * v) 0) := by
  -- the bytes from the lowest address on, which is the least significant
  induction n generalizing a with
  | zero => rfl
  | succ n ih =>
    have hfirst := h 0 (Nat.succ_pos n)
    rw [BitVec.add_zero] at hfirst
    have hrest := ih (a := a + 1#32) fun k hk => by
      have hk' := h (k + 1) (Nat.succ_lt_succ hk)
      rwa [Nat.add_comm k 1, BitVec.ofNat_add, ← BitVec.add_assoc] at hk'
    rw [loadValue, hfirst, ok_bind, hrest, ok_bind, imageBytes_succ]
    rfl

theorem loadWord_of_bytes
    (h : ∀ k < 4, loadByte V cpu (a + BitVec.ofNat 32 k) σ = .ok (image (a + BitVec.ofNat 32 k))) :
    loadWord V cpu a σ = .ok (imageValue image a 4) := by
  rw [loadWord, loadValue_of_bytes h]
  rfl

/-- `e_phnum` has 16 bits. -/
theorem imageValue_two (image : Word → Byte) (a : Word) :
    (imageValue image a 2).toNat =
      (imageBytes image a 2).foldr (fun b v => b.toNat + 256 * v) 0 := by
  have h₀ := (image a).isLt
  have h₁ := (image (a + 1#32)).isLt
  rw [imageValue, imageBytes_succ, imageBytes_succ, BitVec.toNat_ofNat]
  refine Nat.mod_eq_of_lt ?_
  simp only [List.foldr_cons, imageBytes, List.range_zero, List.map_nil, List.foldr_nil]
  omega

/-! ### One segment -/

/-- A computation whose rest depends only on what it returns. -/
theorem bind_congr_ok {α β : Type} {x : Except Panic α} {f g : α → Except Panic β}
    (h : ∀ a, x = .ok a → f a = g a) : (x >>= f) = (x >>= g) := by
  cases x with
  | error p => rfl
  | ok a => exact h a rfl

@[simp] theorem Load.quiet_ok_bind {α β : Type} (a : α) (f : α → Load β) :
    (Load.quiet (.ok a) >>= f) = f a := rfl

/-- The image can be read while it is loaded: it was in kernel memory when loading began. -/
structure Held (V : Variables) (B : Boot) (e : Fin nenv) (image : Word → Byte) (binary : Word)
    (σ₀ : State) : Prop where
  image : HoldsImage V B σ₀ image binary
  mirrors : ∀ d, dirFrame B σ₀ (some e) = some d → Mirrors B σ₀ d

namespace Underway

variable (h : Underway B cpu e O c efree σ₀ σ) (hheld : Held V B e image binary σ₀)
include h hheld

theorem loadByte (ha : ImageByte image binary a) : loadByte V cpu a σ = .ok (image a) := by
  -- the byte is where it was, and the directory of `e` leads to it
  have hin := (hheld.image a ha).of_apart h.apart
  have hd : dirFrame B σ₀ (some e) = some (frameAt (σ.envs e).envPgdir) := by
    rw [← h.apart.dirs, h.owned.dir]
  refine hin.loadByte ?_
  rw [h.cr3]
  exact hin.pde_eq ((hheld.mirrors _ hd).of_apart hd h.apart)

/-- A field of the header `i`. -/
theorem loadField {i : ℕ} (off : ℕ)
    (hi : i < headerCount (binary + elfPhoff image binary) (elfPhnum image binary))
    (hoff : off + 4 ≤ 32) (hph : ph = binary + elfPhoff image binary + BitVec.ofNat 32 (32 * i)) :
    loadWord V cpu (ph + BitVec.ofNat 32 off) σ =
      .ok (imageValue image (ph + BitVec.ofNat 32 off) 4) := by
  refine loadWord_of_bytes fun k hk => h.loadByte hheld ?_
  rw [BitVec.add_assoc, ← BitVec.ofNat_add, hph]
  exact .programHeader i (off + k) hi (by omega)

/-- All that `load_icode` looks at. -/
theorem loadHeader {i : ℕ}
    (hi : i < headerCount (binary + elfPhoff image binary) (elfPhnum image binary))
    (hph : ph = binary + elfPhoff image binary + BitVec.ofNat 32 (32 * i)) :
    loadWord V cpu ph σ = .ok (proghdrAt image ph).pType ∧
    loadWord V cpu (ph + 4#32) σ = .ok (proghdrAt image ph).pOffset ∧
    loadWord V cpu (ph + 8#32) σ = .ok (proghdrAt image ph).pVa ∧
    loadWord V cpu (ph + 16#32) σ = .ok (proghdrAt image ph).pFilesz ∧
    loadWord V cpu (ph + 20#32) σ = .ok (proghdrAt image ph).pMemsz := by
  have htype := h.loadField hheld 0 hi (by decide) hph
  rw [BitVec.add_zero] at htype
  exact ⟨htype, h.loadField hheld 4 hi (by decide) hph,
    h.loadField hheld 8 hi (by decide) hph,
    h.loadField hheld 16 hi (by decide) hph,
    h.loadField hheld 20 hi (by decide) hph⟩

/-- `memcpy` from the image. -/
theorem memmoveUp_eq
    (hsrc : ∀ k < n, ImageByte image binary (src + BitVec.ofNat 32 k))
    (hdst : dst.toNat + n ≤ utop.toNat) :
    Jos.memmoveUp V cpu n dst src σ = Jos.storeBytes cpu (imageBytes image src n) dst σ := by
  induction n generalizing σ dst src with
  | zero => rfl
  | succ n ih =>
    have hfirst := hsrc 0 (Nat.succ_pos n)
    rw [BitVec.add_zero] at hfirst
    have hlt : dst < utop := by
      rw [BitVec.lt_def]
      omega
    have hnext := toNat_succ_of_lt_utop hlt
    rw [imageBytes_succ, Jos.memmoveUp, h.loadByte hheld hfirst, ok_bind, Jos.storeBytes]
    -- the byte that is written is below `UTOP`, so the image can still be read
    refine bind_congr_ok fun σ₁ hstore => ?_
    refine ih (h.storeByte hlt hstore) (fun k hk => ?_) (by omega)
    have hk' := hsrc (k + 1) (Nat.succ_lt_succ hk)
    rwa [Nat.add_comm k 1, BitVec.ofNat_add, ← BitVec.add_assoc] at hk'

theorem memmove_eq {n : Word}
    (hsrc : ∀ k < n.toNat, ImageByte image binary (src + BitVec.ofNat 32 k))
    (hdst : dst.toNat + n.toNat ≤ utop.toNat) :
    memmove V cpu dst src n σ = Jos.storeBytes cpu (imageBytes image src n.toNat) dst σ := by
  -- the image is above the segment, or there is nothing to copy
  have hover : ¬Overlaps dst src n := by
    rintro ⟨hlt, hin⟩
    by_cases hn : n.toNat = 0
    · obtain rfl : n = 0#32 := BitVec.eq_of_toNat_eq hn
      rw [BitVec.add_zero] at hin
      exact absurd (BitVec.lt_trans hlt hin) (BitVec.lt_irrefl _)
    · have habove := (hheld.image _ (hsrc 0 (Nat.pos_of_ne_zero hn))).above
      rw [BitVec.add_zero, BitVec.le_def] at habove
      rw [BitVec.lt_def] at hlt
      omega
  rw [memmove, if_neg hover]
  exact h.memmoveUp_eq hheld hsrc hdst

/-- The body of the loop reads the header of the image and places its segment. -/
theorem loadSegment_result {i : ℕ}
    (hi : i < headerCount (binary + elfPhoff image binary) (elfPhnum image binary))
    (himage : Loadable image binary)
    (hph : ph = binary + elfPhoff image binary + BitVec.ofNat 32 (32 * i)) :
    (loadSegment V B cpu e binary ph σ).result =
      placeSegment B cpu e image binary σ (elfHeader image binary i) := by
  have hmem : elfHeader image binary i ∈ proghdrs image binary :=
    List.mem_map.mpr ⟨i, List.mem_range.mpr hi, rfl⟩
  have hheader : elfHeader image binary i = proghdrAt image ph := by rw [hph]; rfl
  have hfile (k : ℕ) := ImageByte.file _ k hmem
  have hload := himage _ hmem
  rw [hheader] at hfile hload ⊢
  obtain ⟨htype, -, hva, -, hmemsz⟩ := h.loadHeader hheld hi hph
  rw [loadSegment, htype, Load.quiet_ok_bind, placeSegment]
  split
  · next hseg =>
    obtain ⟨hend, hsize⟩ := hload hseg
    obtain ⟨hstart, hrest, hle⟩ := Proghdr.parts_toNat hend hsize
    rw [hmemsz, Load.quiet_ok_bind, hva, Load.quiet_ok_bind, Logged.result_bind]
    -- the header is the same after `region_alloc`, and after `memcpy`
    refine bind_congr_ok fun σ₁ hregion => ?_
    have h₁ := h.exec (V := V) (a := .region _ _) (fun _ => (regionAlloc_pages hend).1) hregion
    obtain ⟨-, hoffset, hva, hfilesz, -⟩ := h₁.loadHeader hheld hi hph
    rw [hfilesz, Load.quiet_ok_bind, hoffset, Load.quiet_ok_bind, hva, Load.quiet_ok_bind,
      Logged.result_bind]
    have hcopied : (Load.act V B cpu e (.copy (proghdrAt image ph).pVa
        (binary + (proghdrAt image ph).pOffset) (proghdrAt image ph).pFilesz) σ₁).result = _ :=
      h₁.memmove_eq hheld (fun k hk => hfile k hseg hk) (by omega)
    rw [hcopied]
    refine bind_congr_ok fun σ₂ hcopy => ?_
    have h₂ := h₁.storeBytes (fun _ => by
      rw [imageBytes, List.length_map, List.length_range]
      omega) hcopy
    obtain ⟨-, -, hva, hfilesz, hmemsz⟩ := h₂.loadHeader hheld hi hph
    rw [hfilesz, Load.quiet_ok_bind, hmemsz, Load.quiet_ok_bind, hva, Load.quiet_ok_bind]
    rfl
  · rfl

end Underway

/-! ### All of them -/

namespace Underway

theorem placeSegment {hdr : Proghdr} (h : Underway B cpu e O c efree σ₀ σ)
    (hfits : hdr.pType = elfProgLoad →
      hdr.pVa.toNat + hdr.pMemsz.toNat ≤ utop.toNat ∧ hdr.pFilesz ≤ hdr.pMemsz)
    (hrun : placeSegment B cpu e image binary σ hdr = .ok σ') :
    Underway B cpu e O c efree σ₀ σ' := by
  unfold Jos.placeSegment at hrun
  split at hrun
  · next hseg =>
    obtain ⟨hend, hsize⟩ := hfits hseg
    obtain ⟨hstart, hrest, hle⟩ := Proghdr.parts_toNat hend hsize
    obtain ⟨σ₁, hregion, hrun⟩ := bind_eq_ok.mp hrun
    obtain ⟨σ₂, hcopy, hclear⟩ := bind_eq_ok.mp hrun
    have h₁ := h.regionAllocLoop (fun _ => (regionAlloc_pages hend).1) hregion
    have h₂ := h₁.storeBytes (fun _ => by
      rw [imageBytes, List.length_map, List.length_range]
      omega) hcopy
    refine h₂.storeBytes (fun _ => ?_) hclear
    rw [List.length_replicate]
    omega
  · obtain rfl := Except.ok.inj hrun
    exact h

variable (hheld : Held V B e image binary σ₀) (himage : Loadable image binary)
include hheld himage

/-- The loop, with `n` headers left from number `m` on. -/
theorem loadSegments_result {m : ℕ} (h : Underway B cpu e O c efree σ₀ σ)
    (hn : m + n ≤ headerCount (binary + elfPhoff image binary) (elfPhnum image binary))
    (hph : ph = binary + elfPhoff image binary + BitVec.ofNat 32 (32 * m)) :
    (loadSegments V B cpu e binary n ph σ).result =
      ((List.range' m n).map (elfHeader image binary)).foldlM
        (Jos.placeSegment B cpu e image binary) σ := by
  induction n generalizing σ ph m with
  | zero => rfl
  | succ n ih =>
    have hm : m < headerCount (binary + elfPhoff image binary) (elfPhnum image binary) := by omega
    have hmem : elfHeader image binary m ∈ proghdrs image binary :=
      List.mem_map.mpr ⟨m, List.mem_range.mpr hm, rfl⟩
    rw [List.range'_succ, List.map_cons, List.foldlM_cons, loadSegments, Logged.result_bind,
      h.loadSegment_result hheld hm himage hph]
    -- the next header is 32 bytes further on, and loading is still underway
    refine bind_congr_ok fun σ₁ hfirst => ?_
    refine ih (h.placeSegment (himage _ hmem) hfirst) (by omega) ?_
    rw [hph, BitVec.add_assoc, ← BitVec.ofNat_add, Nat.mul_add, Nat.mul_one]

omit hheld in
theorem placeSegments {l : List Proghdr} (hl : ∀ hdr ∈ l, hdr ∈ proghdrs image binary)
    (h : Underway B cpu e O c efree σ₀ σ)
    (hrun : l.foldlM (Jos.placeSegment B cpu e image binary) σ = .ok σ') :
    Underway B cpu e O c efree σ₀ σ' := by
  induction l generalizing σ with
  | nil =>
    obtain rfl := Except.ok.inj hrun
    exact h
  | cons hdr l ih =>
    rw [List.foldlM_cons] at hrun
    obtain ⟨σ₁, hfirst, hrest⟩ := bind_eq_ok.mp hrun
    refine ih (fun hdr' hmem => hl hdr' (List.mem_cons_of_mem _ hmem))
      (h.placeSegment (himage _ (hl hdr List.mem_cons_self)) hfirst) hrest

end Underway

/-- Loading begins with the directory of `e` in `cr3`. -/
theorem LoadInv.start (h : LoadInv B e O c efree σ free M) (cpu : ℕ) :
    Underway B cpu e O c efree σ (lcr3 cpu ((σ.envs e).envPgdir - kernbase) σ) := by
  have h₁ : LoadInv B e O c efree (lcr3 cpu ((σ.envs e).envPgdir - kernbase) σ) free M :=
    h.of_sameSpaces (.cpus rfl)
  refine ⟨h₁.owned, ?_, .of_sameSpaces (.cpus rfl) fun _ _ => rfl, .inr ⟨free, M, h₁⟩⟩
  rw [InCr3, lcr3, setCpu_cpus]
  rfl

theorem LoadInv.held (h : LoadInv B e O c efree σ free M) (hheld : HoldsImage V B σ image binary)
    (hown : Mirrors B σ (frameAt (σ.envs e).envPgdir)) : Held V B e image binary σ := by
  refine ⟨hheld, fun d hd => ?_⟩
  obtain rfl := Option.some.inj (h.dir.symm.trans hd)
  exact hown

/-- The ELF header is read through the directory that `load_icode` finds in `cr3`. -/
theorem HoldsImage.loadElf (hheld : HoldsImage V B σ image binary)
    (hcr3 : Mirrors B σ (pgnum (σ.cpus cpu).cr3)) :
    loadWord V cpu (binary + 28#32) σ = .ok (elfPhoff image binary) ∧
      loadValue V cpu 2 (binary + 44#32) σ = .ok (elfPhnum image binary) := by
  have hfield (k n : ℕ) (hk : k + n ≤ 52) : ∀ j < n,
      loadByte V cpu (binary + BitVec.ofNat 32 k + BitVec.ofNat 32 j) σ =
        .ok (image (binary + BitVec.ofNat 32 k + BitVec.ofNat 32 j)) := by
    intro j hj
    rw [BitVec.add_assoc, ← BitVec.ofNat_add]
    have hin := hheld _ (.header (k + j) (by omega))
    exact hin.loadByte (hin.pde_eq hcr3)
  refine ⟨loadWord_of_bytes (hfield 28 4 (by decide)), ?_⟩
  rw [elfPhnum, imageValue_two]
  exact loadValue_of_bytes (hfield 44 2 (by decide))

/-- For a program in kernel memory `load_icode` does what `placeImage` does. -/
theorem loadIcode_refines (h : LoadInv B e O c efree σ free M) (himage : Loadable image binary)
    (hheld : HoldsImage V B σ image binary) (hcr3 : Mirrors B σ (pgnum (σ.cpus cpu).cr3))
    (hown : Mirrors B σ (frameAt (σ.envs e).envPgdir)) :
    (loadIcode V B cpu e binary σ).result = placeImage B cpu e image binary σ := by
  obtain ⟨hphoff, hphnum⟩ := hheld.loadElf hcr3
  rw [loadIcode, hphoff, Load.quiet_ok_bind, hphnum, Load.quiet_ok_bind, Logged.result_bind,
    placeImage]
  -- the headers are read, and the directory of `e` is loaded
  refine bind_congr_ok fun pa hpa => ?_
  obtain ⟨-, rfl⟩ := paddr_eq_ok.mp hpa
  have hheld₁ := h.held hheld hown
  have hunder := h.start cpu
  dsimp only
  rw [Logged.result_bind, hunder.loadSegments_result hheld₁ himage (m := 0) (by omega)
    (by rw [BitVec.add_zero]), ← List.range_eq_range', ← proghdrs]
  refine bind_congr_ok fun σ₂ hsegments => ?_
  have h₂ := hunder.placeSegments himage (fun _ hmem => hmem) hsegments
  -- `e_entry` is read when all segments are in place
  have hentry : loadWord V cpu (binary + 24#32) σ₂ = .ok (imageValue image (binary + 24#32) 4) := by
    refine loadWord_of_bytes fun k hk => h₂.loadByte hheld₁ ?_
    rw [BitVec.add_assoc, ← BitVec.ofNat_add]
    exact .header (24 + k) (by omega)
  rw [hentry, Load.quiet_ok_bind, Logged.result_bind]
  rfl

/-! ### A new environment -/

/-- A byte in kernel memory is still there when an environment has been made. -/
theorem InKernel.of_envAllocated {parentId : Word} {p : ℕ} (h : InKernel V B σ image a)
    (hinv : MemInv B σ free efree) (hp : p ∈ free) (hal : EnvAllocated B parentId e p σ σ') :
    InKernel V B σ' image a := by
  obtain ⟨f, w, haccess, hf, hbyte⟩ := h.found
  have hm : B.Managed p := hinv.page.free_managed p hp
  -- `kern_pgdir` is not the page that the new directory takes
  have hkern : σ'.mem B.kernFrame = σ.mem B.kernFrame := hal.other _ hm.ne_kernFrame.symm
  have hwalk : kernelAccess σ' B.kernFrame a = kernelAccess σ B.kernFrame a := by
    rw [kernelAccess, kernelAccess, x86Walk, x86Walk, hkern]
    cases hu : entryOf (σ.mem B.kernFrame (pdx a)) with
    | none => rfl
    | some u =>
      -- a page table of the kernel is referred to, so it was not the free page
      have hne : u.1 ≠ p := fun hc => hinv.page.slot_ne_of_mem hp (.pde none (pdx a)) (by
        rw [← hc]
        exact Separated.slotRef_pde rfl h.outside hu)
      rw [Option.bind_some, Option.bind_some, hal.other _ hne]
  have hne : f ≠ p := by
    rintro rfl
    exact hf hm
  exact ⟨h.above, h.outside, f, w, hwalk.trans haccess, hf,
    fun τ hτ => hbyte τ (hτ.trans (hal.other f hne))⟩

/-- Its directory is a copy of that of the kernel. -/
theorem EnvAllocated.mirrors {parentId : Word} {p : ℕ} (hm : B.Managed p)
    (hal : EnvAllocated B parentId e p σ σ') : Mirrors B σ' (frameAt (σ'.envs e).envPgdir) := by
  have hdir : frameAt (σ'.envs e).envPgdir = p := by
    rw [hal.envs, Function.update_self]
    exact hm.frameAt_kva
  intro k _ hout
  rw [hdir, hal.dir, Function.update_of_ne hout, hal.other _ hm.ne_kernFrame.symm]

/-- A program in kernel memory, for a new environment. -/
theorem loadIcode_refines_new (h : UpperInv B σ₀) {parentId : Word}
    (hal : envAlloc B parentId σ₀ = .ok (0, some e, σ)) (himage : Loadable image binary)
    (hheld : HoldsImage V B σ image binary) (hcr3 : Mirrors B σ (pgnum (σ.cpus cpu).cr3)) :
    (loadIcode V B cpu e binary σ).result = placeImage B cpu e image binary σ := by
  obtain ⟨t, free₀, efree₀, hinv₀, -⟩ := h
  obtain ⟨rest, p, free, rfl, rfl, hinv, halloc⟩ := hinv₀.envAlloc_zero hal
  have hm : B.Managed p := hinv₀.page.free_managed p List.mem_cons_self
  exact loadIcode_refines (LoadInv.of_envAllocated hinv₀ hinv halloc) himage hheld hcr3
    (halloc.mirrors hm)

/-- With no page left `load_icode` panics. -/
theorem loadIcode_none (hnone : σ.pageFreeList = none) :
    (loadIcode V B cpu e binary σ).result ≠ .ok σ' := by
  intro h
  obtain ⟨entry, σ₁, -, hactions, hstack⟩ :=
    loadIcode_run (Logged.ext rfl h)
  have hnone₁ : σ₁.pageFreeList = none := LoadAction.execAll_none hactions hnone
  exact pageFreeList_of_stack hstack hnone₁

/-- For a program in kernel memory `env_create`, with `kern_pgdir` in `cr3`, does what `placeEnv`
does. -/
theorem envCreate_refines {rest : List (Fin nenv)} (h : MemInv B σ free (e :: rest))
    (himage : Loadable image binary) (hheld : HoldsImage V B σ image binary)
    (hcr3 : pgnum (σ.cpus cpu).cr3 = B.kernFrame) (uninit : Option (Fin nenv)) (type : EnvType)
    (σ' : State) : (envCreate V B cpu uninit binary type σ).result = .ok σ' ↔
      placeEnv B cpu uninit image binary type σ = .ok σ' := by
  rw [envCreate, Logged.result_bind, placeEnv]
  cases halloc : envAlloc B 0#32 σ with
  | error p => exact Iff.rfl
  | ok r =>
    obtain ⟨r, stored, σ₁⟩ := r
    obtain ⟨hc, -⟩ | ⟨rfl, -, rfl, rfl⟩ |
        ⟨e', rest', p, free', he, rfl, -, rfl, hpage, henv, hlow, hal⟩ :=
      envAlloc_ok h.page h.env h.low halloc
    · cases hc
    · -- without a page both panic, whatever `e` is
      have hnone : σ₁.pageFreeList = none := h.page.chain.head_none_iff.mpr rfl
      cases uninit with
      | none => exact Iff.rfl
      | some e' =>
        exact iff_of_false (loadIcode_none (σ := σ₁.setEnv e' _) hnone)
          (placeImage_none (σ := σ₁.setEnv e' _) hnone)
    · obtain ⟨rfl, rfl⟩ := List.cons.inj he
      have hm : B.Managed p := h.page.free_managed p List.mem_cons_self
      have hstart := LoadInv.of_envAllocated h (h.of_envAllocated hpage henv hlow hal) hal
      set σ₂ := σ₁.setEnv e { σ₁.envs e with envType := type } with hσ₂
      have hsame : SameSpaces σ₁ σ₂ := .setEnv hal.live hal.live rfl rfl
      have hheld₂ : HoldsImage V B σ₂ image binary := fun a ha =>
        ((hheld a ha).of_envAllocated h List.mem_cons_self hal).of_mem hsame.mem
      have hcpus : σ₂.cpus = σ.cpus := by
        rw [← envAlloc_cpus halloc]
        rfl
      have hcr3₂ : Mirrors B σ₂ (pgnum (σ₂.cpus cpu).cr3) := by
        rw [hcpus, hcr3]
        exact fun _ _ _ => rfl
      have hown : Mirrors B σ₂ (frameAt (σ₂.envs e).envPgdir) := by
        rw [hsame.pgdir]
        intro k hk hout
        rw [hsame.mem]
        exact hal.mirrors hm k hk hout
      have hrefines := loadIcode_refines (hstart.of_sameSpaces hsame) himage hheld₂ hcr3₂ hown
      exact iff_of_eq (congrArg (· = Except.ok σ') hrefines)

/-! ### The results -/

/-- `load_icode` builds the image that the program describes. -/
theorem loadIcode_builds (h : UpperInv B σ₀) {parentId : Word}
    (hal : envAlloc B parentId σ₀ = .ok (0, some e, σ)) (himage : WellFormed image binary size)
    (hheld : HoldsImage V B σ image binary) (hcr3 : Mirrors B σ (pgnum (σ.cpus cpu).cr3))
    (hfree : Chain σ.link σ.pageFreeList free) (henough : pagesNeeded image binary ≤ free.length) :
    ∃ σ', (loadIcode V B cpu e binary σ).result = .ok σ' ∧ ImageBuilt e image binary σ σ' := by
  obtain ⟨σ', hrun, hbuilt⟩ := placeImage_builds h hal himage hfree henough cpu
  refine ⟨σ', ?_, hbuilt⟩
  rw [loadIcode_refines_new h hal himage.loadable hheld hcr3]
  exact hrun

/-- `env_create` panics or loads the whole program, except with the one amount of free memory
with which the page of the stack is lost. -/
theorem envCreate_loads_iff {rest : List (Fin nenv)} (h : MemInv B σ free (e :: rest))
    (himage : Loadable image binary) (hheld : HoldsImage V B σ image binary)
    (hcr3 : pgnum (σ.cpus cpu).cr3 = B.kernFrame) (uninit : Option (Fin nenv)) (type : EnvType) :
    (∀ σ', (envCreate V B cpu uninit binary type σ).result = .ok σ' →
      FullyLoaded B e (proghdrs image binary) σ σ') ↔ ¬LosesPage (proghdrs image binary) free := by
  rw [← placeEnv_loads_iff h himage cpu uninit type]
  exact forall_congr' fun σ' => imp_congr_left
    (envCreate_refines h himage hheld hcr3 uninit type σ')

/-! ### The small machine -/

/-- The data of the kernel when it has a program in frame `0x108`, and nothing else matters. -/
def imageVariables (image : Word → Byte) : Variables := fun _ f off =>
  if f = 0x108 then some (image (page2pa f + kernbase + BitVec.ofNat 32 off)) else none

/-- The state after `mem_init` and `env_init`, with `kern_pgdir` in `cr3`. -/
def onKernPgdir (σ : State) : State := lcr3 0 (smallMachine.kernPgdir - kernbase) (envInit σ)

theorem onKernPgdir_cr3 (σ : State) :
    pgnum ((onKernPgdir σ).cpus 0).cr3 = smallMachine.kernFrame := by
  rw [onKernPgdir, lcr3, setCpu_cpus]
  rfl

/-- The addresses of the program. -/
theorem imageAddress_small {k : ℕ} (hk : k < 4096) (ha : a = 0xF0108000#32 + BitVec.ofNat 32 k) :
    a.toNat = 0xF0108000 + k ∧ pdx a = 960 ∧ pgoff a = k ∧ kernbase ≤ a ∧ frameAt a = 0x108 := by
  have hval : a.toNat = 0xF0108000 + k := by
    rw [ha, BitVec.toNat_add, BitVec.toNat_ofNat, BitVec.toNat_ofNat]
    omega
  have hhigh : kernbase ≤ a := by
    rw [BitVec.le_def, hval, show kernbase.toNat = 0xF0000000 from rfl]
    omega
  refine ⟨hval, Fin.ext ?_, ?_, hhigh, ?_⟩
  · rw [pdx_val, hval]
    omega
  · rw [pgoff_eq, hval]
    omega
  · rw [frameAt, pgnum_eq, BitVec.toNat_sub_of_le hhigh, hval,
      show kernbase.toNat = 0xF0000000 from rfl]
    omega

/-- What a directory reaches there that maps nothing above `KERNBASE`. -/
theorem kernelAccess_small {k : ℕ} (hk : k < 4096) (hnone : entryOf (σ.mem d 960) = none) :
    kernelAccess σ d (0xF0108000#32 + BitVec.ofNat 32 k) = some (0x108, true) := by
  obtain ⟨-, hpdx, -, hhigh, hframe⟩ := imageAddress_small hk rfl
  rw [kernelAccess, x86Walk, hpdx, hnone, Option.bind_none, hframe]
  exact if_pos hhigh

theorem kernelByte_small (image : Word → Byte) {k : ℕ} (hk : k < 4096) (σ : State) :
    kernelByte (imageVariables image) σ 0x108 (pgoff (0xF0108000#32 + BitVec.ofNat 32 k)) =
      image (0xF0108000#32 + BitVec.ofNat 32 k) := by
  obtain ⟨-, -, hoff, -, -⟩ := imageAddress_small hk rfl
  rw [kernelByte, imageVariables, if_pos rfl, hoff, Option.getD_some]
  rfl

/-- A program of less than a page is in kernel memory there. -/
theorem inKernel_small (image : Word → Byte)
    (hnone : entryOf (σ.mem smallMachine.kernFrame 960) = none) {k : ℕ} (hk : k < 4096) :
    InKernel (imageVariables image) smallMachine σ image (0xF0108000#32 + BitVec.ofNat 32 k) := by
  obtain ⟨hval, hpdx, -, -, -⟩ := imageAddress_small hk rfl
  -- frame `0x108` is part of the kernel image, and not managed
  refine ⟨?_, ?_, 0x108, true, kernelAccess_small hk hnone, ?_, fun τ _ => kernelByte_small _ hk τ⟩
  · rw [BitVec.le_def, hval, show utop.toNat = 0xEEC00000 from rfl]
    omega
  · rw [hpdx]
    decide
  · rw [smallMachine_managed_iff]
    decide

theorem segmentImage_wellFormed (memsz : Word) (hsize : 4 ≤ memsz.toNat)
    (hend : 0x800000 + memsz.toNat ≤ (ustacktop - pgsize).toNat)
    (hphoff : elfPhoff (segmentImage memsz) 0xF0108000#32 = 52#32)
    (hphnum : elfPhnum (segmentImage memsz) 0xF0108000#32 = 1)
    (hheader : elfHeader (segmentImage memsz) 0xF0108000#32 0 =
      ⟨elfProgLoad, 84#32, 0x800000#32, 4#32, memsz⟩) :
    WellFormed (segmentImage memsz) 0xF0108000#32 88 where
  kernel := by decide
  ends := by decide
  headers := by rw [hphoff, hphnum]; decide
  headersEnd := by rw [hphoff, hphnum]; decide
  -- there is one header, number 0
  filesz i hi _ := by
    obtain rfl : i = 0 := by omega
    rw [hheader]
    exact BitVec.le_def.mpr hsize
  file i hi _ := by
    obtain rfl : i = 0 := by omega
    rw [hheader]
    change (84#32).toNat + (4#32).toNat ≤ 88
    decide
  below i hi _ := by
    obtain rfl : i = 0 := by omega
    rw [hheader]
    exact hend
  disjoint i j hij hj := by omega

/-- What `load_icode` reads is in the image. -/
theorem WellFormed.imageByte (h : WellFormed image binary size) (hsize : 52 ≤ size)
    (ha : ImageByte image binary a) : ∃ k < size, a = binary + BitVec.ofNat 32 k := by
  -- the ELF header, the program headers, and the bytes of the segments
  cases ha with
  | header k hk => exact ⟨k, by omega, rfl⟩
  | programHeader i k hi hk =>
    have hcount : i < elfPhnum image binary := by
      unfold headerCount at hi
      split at hi
      · exact hi
      · exact absurd hi (Nat.not_lt_zero i)
    have hheaders := h.headers
    refine ⟨(elfPhoff image binary).toNat + 32 * i + k, by omega, ?_⟩
    rw [BitVec.ofNat_add, BitVec.ofNat_add, BitVec.ofNat_toNat, BitVec.setWidth_eq,
      ← BitVec.add_assoc, ← BitVec.add_assoc]
  | file ph k hph htype hk =>
    obtain ⟨i, hi, rfl⟩ := h.mem_proghdrs.mp hph
    have hfile := h.file i hi htype
    refine ⟨(elfHeader image binary i).pOffset.toNat + k, by omega, ?_⟩
    rw [BitVec.ofNat_add, BitVec.ofNat_toNat, BitVec.setWidth_eq, ← BitVec.add_assoc]

/-- The program of one segment is in the memory of the small machine. -/
theorem holdsImage_small {memsz : Word} {size : ℕ}
    (himage : WellFormed (segmentImage memsz) 0xF0108000#32 size) (hsize : 52 ≤ size)
    (hpage : size ≤ 4096) (hnone : entryOf (σ.mem smallMachine.kernFrame 960) = none) :
    HoldsImage (imageVariables (segmentImage memsz)) smallMachine σ (segmentImage memsz)
      0xF0108000#32 := by
  intro a ha
  obtain ⟨k, hk, rfl⟩ := himage.imageByte hsize ha
  exact inKernel_small _ hnone (by omega)

/-- The small machine before its first environment is made: there are 876 free pages. -/
theorem smallMachine_ready : ∃ σ free rest, MemInited smallMachine smallMemory σ ∧
    MemInv smallMachine (onKernPgdir σ) free (0 :: rest) ∧ UpperInv smallMachine (onKernPgdir σ) ∧
    entryOf ((onKernPgdir σ).mem smallMachine.kernFrame 960) = none ∧ free.length = 876 ∧
    (∀ p, free.head? = some p → p < 65536) ∧ ∀ c, (onKernPgdir σ).curenv c = none := by
  obtain ⟨σ, free, rest, hinit, hinv, hlen, hlow, hcur⟩ := smallMachine_free_length
  have hsame : SameSpaces (envInit σ) (onKernPgdir σ) := .cpus rfl
  obtain ⟨t, free', efree', hinv', hw⟩ := hinit.upperInv smallMemory_booted
  have hw' : Window smallMachine (onKernPgdir σ) t :=
    ⟨hw.table, hw.nothing, hw.entry, hw.copy, hw.own⟩
  exact ⟨σ, free, rest, hinit, hsame.memInv hinv, ⟨t, free', efree', hsame.memInv hinv', hw'⟩,
    hw.nothing 960 (by decide) (by decide), hlen, hlow,
    fun c => ((lcr3_table 0 _ _).curenv c).trans (hcur c)⟩

/-- And with it: 875 are left. -/
theorem smallMachine_envAlloc : ∃ σ₀ σ O efree free, MemInited smallMachine smallMemory σ₀ ∧
    UpperInv smallMachine (onKernPgdir σ₀) ∧
    envAlloc smallMachine 0#32 (onKernPgdir σ₀) = .ok (0, some 0, σ) ∧ UpperInv smallMachine σ ∧
    LoadInv smallMachine 0 O free.length efree σ free ∅ ∧ free.length = 875 ∧
    Mirrors smallMachine σ (pgnum (σ.cpus 0).cr3) ∧
    entryOf (σ.mem smallMachine.kernFrame 960) = none ∧ ∀ c, σ.curenv c = none := by
  obtain ⟨σ₀, free, rest, hinit, hinv, hupper, -, hlen, -, hcur⟩ := smallMachine_ready
  obtain ⟨p, free, rfl⟩ := List.exists_cons_of_length_pos (by rw [hlen]; decide : 0 < free.length)
  obtain ⟨σ, halloc, hinv₁, hal⟩ := hinv.envAlloc_succeeds (by decide) 0#32
  obtain ⟨t, free', efree', hinv', hw⟩ := hupper
  obtain ⟨rest', p', free'', rfl, rfl, hinv'', hal'⟩ := hinv'.envAlloc_zero halloc
  have hw' := hw.of_envAllocated hinv' List.mem_cons_self hal'
  refine ⟨σ₀, σ, _, rest, free, hinit, ⟨t, _, _, hinv', hw⟩, halloc,
    ⟨t, free'', rest', hinv'', hw'⟩, .of_envAllocated hinv hinv₁ hal, Nat.succ.inj hlen, ?_,
    hw'.nothing 960 (by decide) (by decide), fun c => (hal.curenv c).trans (hcur c)⟩
  rw [envAlloc_cpus halloc, onKernPgdir_cr3]
  exact fun _ _ _ => rfl

/-- A page for the segment, one for the stack, and their page tables. -/
theorem segmentImage_pagesNeeded :
    pagesNeeded (segmentImage 0x1000#32) 0xF0108000#32 = 4 := by
  have hph : proghdrs (segmentImage 0x1000#32) 0xF0108000#32 =
      [⟨elfProgLoad, 84#32, 0x800000#32, 4#32, 0x1000#32⟩] := by decide
  rw [pagesNeeded, imagePages, hph]
  decide

/-- A program of one page, with 4 bytes in the file. -/
theorem loadIcode_builds_small : ∃ σ₀ σ σ' free, UpperInv smallMachine σ₀ ∧
    envAlloc smallMachine 0#32 σ₀ = .ok (0, some 0, σ) ∧
    WellFormed (segmentImage 0x1000#32) 0xF0108000#32 88 ∧
    HoldsImage (imageVariables (segmentImage 0x1000#32)) smallMachine σ (segmentImage 0x1000#32)
      0xF0108000#32 ∧
    Mirrors smallMachine σ (pgnum (σ.cpus 0).cr3) ∧ Chain σ.link σ.pageFreeList free ∧
    pagesNeeded (segmentImage 0x1000#32) 0xF0108000#32 ≤ free.length ∧
    (loadIcode (imageVariables (segmentImage 0x1000#32)) smallMachine 0 0 0xF0108000#32 σ).result =
      .ok σ' ∧
    ImageBuilt 0 (segmentImage 0x1000#32) 0xF0108000#32 σ σ' := by
  obtain ⟨σ₀, σ, O, efree, free, -, hupper, halloc, -, hload, hlen, hcr3, hnone, -⟩ :=
    smallMachine_envAlloc
  have himage := segmentImage_wellFormed 0x1000#32 (by decide) (by decide) (by decide)
    (by decide) (by decide)
  have hheld := holdsImage_small himage (by decide) (by decide) hnone
  have henough : pagesNeeded (segmentImage 0x1000#32) 0xF0108000#32 ≤ free.length := by
    rw [segmentImage_pagesNeeded, hlen]
    decide
  obtain ⟨σ', hrun, hbuilt⟩ :=
    loadIcode_builds hupper halloc himage hheld hcr3 hload.page.chain henough
  exact ⟨_, σ, σ', free, hupper, halloc, himage, hheld, hcr3, hload.page.chain, henough, hrun,
    hbuilt⟩

/-- A program with one page is loaded. -/
theorem envCreate_loads_small : ∃ σ σ' free rest, MemInited smallMachine smallMemory σ ∧
    MemInv smallMachine (onKernPgdir σ) free (0 :: rest) ∧
    Loadable (segmentImage 0x1000#32) 0xF0108000#32 ∧
    HoldsImage (imageVariables (segmentImage 0x1000#32)) smallMachine (onKernPgdir σ)
      (segmentImage 0x1000#32) 0xF0108000#32 ∧
    pgnum ((onKernPgdir σ).cpus 0).cr3 = smallMachine.kernFrame ∧
    (envCreate (imageVariables (segmentImage 0x1000#32)) smallMachine 0 none 0xF0108000#32 .user
      (onKernPgdir σ)).result = .ok σ' ∧
    FullyLoaded smallMachine 0 (proghdrs (segmentImage 0x1000#32) 0xF0108000#32) (onKernPgdir σ)
      σ' := by
  obtain ⟨σ, free, rest, hinit, hinv, -, hnone, hlen, hlow, -⟩ := smallMachine_ready
  have hwell := segmentImage_wellFormed 0x1000#32 (by decide) (by decide) (by decide)
    (by decide) (by decide)
  have himage := hwell.loadable
  have hheld := holdsImage_small hwell (by decide) (by decide) hnone
  have hcr3 := onKernPgdir_cr3 σ
  have hph : proghdrs (segmentImage 0x1000#32) 0xF0108000#32 =
      [⟨elfProgLoad, 84#32, 0x800000#32, 4#32, 0x1000#32⟩] := by decide
  obtain ⟨hcard, htables⟩ := programPages_at 84#32 4#32 0x1000#32 (n := 1) rfl (by decide)
    (by decide)
  -- four pages are needed in all, and 876 are free
  have hnot : ¬LosesPage (proghdrs (segmentImage 0x1000#32) 0xF0108000#32) free := by
    rintro ⟨hc, -⟩
    rw [hph, hcard, htables, hlen] at hc
    cases hc
  obtain ⟨σ', hok, -⟩ | ⟨σ', -, hloses, -⟩ | ⟨-, hfew⟩ := hinv.placeEnv_cases himage 0 none .user
  · have hrun := (envCreate_refines hinv himage hheld hcr3 none .user σ').mpr hok
    exact ⟨σ, σ', free, rest, hinit, hinv, himage, hheld, hcr3, hrun,
      (envCreate_loads_iff hinv himage hheld hcr3 none .user).mpr hnot σ' hrun⟩
  · exact absurd hloses hnot
  · have hc := hfew hlow
    rw [hph, hcard, htables, hlen] at hc
    exact absurd hc (by decide)

/-- With a program of 873 pages the page of the stack is lost: there are 876 pages, of which one
becomes the page directory and one the page table of the program, and when `region_alloc` has
taken the last one for the stack there is none for the page table of the stack. -/
theorem envCreate_loses_stack : ∃ σ σ' free rest, MemInited smallMachine smallMemory σ ∧
    MemInv smallMachine (onKernPgdir σ) free (0 :: rest) ∧
    Loadable (segmentImage 0x369000#32) 0xF0108000#32 ∧
    HoldsImage (imageVariables (segmentImage 0x369000#32)) smallMachine (onKernPgdir σ)
      (segmentImage 0x369000#32) 0xF0108000#32 ∧
    pgnum ((onKernPgdir σ).cpus 0).cr3 = smallMachine.kernFrame ∧
    (envCreate (imageVariables (segmentImage 0x369000#32)) smallMachine 0 none 0xF0108000#32 .user
      (onKernPgdir σ)).result = .ok σ' ∧
    ¬Permitted σ' 0 (pteU ||| pteW ||| pteP) (ustacktop - pgsize) ∧
    ¬FullyLoaded smallMachine 0 (proghdrs (segmentImage 0x369000#32) 0xF0108000#32) (onKernPgdir σ)
      σ' := by
  obtain ⟨σ, free, rest, hinit, hinv, -, hnone, hlen, hlow, -⟩ := smallMachine_ready
  have hwell := segmentImage_wellFormed 0x369000#32 (by decide) (by decide) (by decide)
    (by decide) (by decide)
  have himage := hwell.loadable
  have hheld := holdsImage_small hwell (by decide) (by decide) hnone
  have hcr3 := onKernPgdir_cr3 σ
  have hph : proghdrs (segmentImage 0x369000#32) 0xF0108000#32 =
      [⟨elfProgLoad, 84#32, 0x800000#32, 4#32, 0x369000#32⟩] := by decide
  obtain ⟨hcard, htables⟩ := programPages_at 84#32 4#32 0x369000#32 (n := 873) rfl (by decide)
    (by decide)
  -- the directory, the 873 pages, their table and the page of the stack are all that is free
  have hloses : LosesPage (proghdrs (segmentImage 0x369000#32) 0xF0108000#32) free := by
    rw [hph]
    refine ⟨by rw [hcard, htables, hlen]; rfl, ?_, hlow⟩
    rw [htables]
    decide
  obtain ⟨σ', -, -, hnot⟩ | ⟨σ', hok, -, hstack⟩ | ⟨-, hfew⟩ :=
    hinv.placeEnv_cases himage 0 none .user
  · exact absurd hloses hnot
  · have hrun := (envCreate_refines hinv himage hheld hcr3 none .user σ').mpr hok
    exact ⟨σ, σ', free, rest, hinit, hinv, himage, hheld, hcr3, hrun, hstack,
      fun h => hstack (h.stack _ rfl)⟩
  · have hlt := hfew hlow
    have heq := hloses.1
    omega

end Jos
