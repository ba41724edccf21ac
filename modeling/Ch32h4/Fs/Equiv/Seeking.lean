import Ch32h4.Fs.Seek
import Mathlib.Algebra.Order.Ring.Nat
import Mathlib.Tactic.Ring

/-!
# Where the file systems agree on `seek`

`agree_iff`: three files with the same size and position answer a `seek` in the same way, and end
at the same position, just under `Meets`.

LittleFS accepts an offset whose sum with the origin of the mode is at most `file_max`, whatever
the size of the file (`LfsFile.seek_of_le`, `LfsFile.seek_of_gt`).  On a FAT volume `f_lseek` stops
at the size of a file that is open for reading and stretches the chain of one that is open for
writing as far as there are free clusters; it never gives the old position back
(`Fil.lseek_spec`).  And with `SeekEnd` one adds the offset to the size, the other takes it away.

`agree_iff_back` and `not_agree` are calls on either side.
-/

namespace Ch32h4.Fs

/-- Where an offset counts from. -/
def origin (position size : ℕ) : SeekMode → ℕ
  | .seekSet => 0
  | .seekCur => position
  | .seekEnd => size

/-! ### LittleFS -/

theorem wrap_lt (n : ℕ) : wrap n < 2 ^ 32 :=
  Nat.mod_lt _ (by decide)

theorem signed_nonneg_iff (n : ℕ) : 0 ≤ signed n ↔ wrap n < 2 ^ 31 := by
  unfold signed wrap
  split_ifs <;> omega

theorem signed_neg_iff (n : ℕ) : signed n < 0 ↔ 2 ^ 31 ≤ wrap n := by
  have := signed_nonneg_iff n
  omega

namespace LfsFile

variable {lfs : Lfs} {f : LfsFile} {off : ℕ} {mode : SeekMode}

theorem npos_of_lt (h : wrap (origin f.pos f.size mode + off) < 2 ^ 31) :
    f.npos off mode = some (wrap (origin f.pos f.size mode + off)) := by
  cases mode with
  | seekSet => simp [npos, origin]
  | seekCur =>
    have : ¬signed (f.pos + off) < 0 := not_lt.mpr ((signed_nonneg_iff _).mpr h)
    simp [npos, origin, this]
  | seekEnd =>
    have : ¬signed (f.size + off) < 0 := not_lt.mpr ((signed_nonneg_iff _).mpr h)
    simp [npos, origin, this]

theorem npos_eq_some {n : ℕ} (h : f.npos off mode = some n) :
    n = wrap (origin f.pos f.size mode + off) := by
  cases mode <;> simp [npos, origin] at h ⊢ <;> simp [h]

/-- An offset that leads to `file_max` at most is accepted. -/
theorem seek_of_le (h : wrap (origin f.pos f.size mode + off) ≤ lfs.fileMax) :
    0 ≤ (f.seek lfs off mode).1 ∧
      (f.seek lfs off mode).2.pos = wrap (origin f.pos f.size mode + off) := by
  have hmax : lfs.fileMax ≤ 2147483647 := lfs.fileMax_le
  have hlt : wrap (origin f.pos f.size mode + off) < 2 ^ 31 := by omega
  have hsigned : 0 ≤ signed (wrap (origin f.pos f.size mode + off)) := by
    rw [signed_nonneg_iff]
    simpa [wrap] using hlt
  rw [seek, npos_of_lt hlt]
  simp only [not_lt.mpr h, if_false]
  split_ifs with hpos
  · exact ⟨hsigned, hpos⟩
  · exact ⟨hsigned, rfl⟩

/-- Every other offset is refused, and nothing changes. -/
theorem seek_of_gt (h : lfs.fileMax < wrap (origin f.pos f.size mode + off)) :
    f.seek lfs off mode = (lfsErrInval, f) := by
  unfold seek
  split
  · rfl
  · rename_i n hn
    rw [npos_eq_some hn, if_pos h]

end LfsFile

/-! ### The cluster chain -/

namespace Fil

variable {f f' f'' : Fil} {clst ofs : ℕ}

/-- `f'` is `f` with another position, and free clusters may have become its own. -/
structure Grown (f f' : Fil) : Prop where
  objsize : f'.objsize = f.objsize
  write : f'.write = f.write
  err : f'.err = f.err
  bcs : f'.fs.bcs = f.fs.bcs
  total : f'.clusters + f'.fs.free = f.clusters + f.fs.free
  clusters : f.clusters ≤ f'.clusters

theorem Grown.trans (h : Grown f f') (h' : Grown f' f'') : Grown f f'' where
  objsize := h'.objsize.trans h.objsize
  write := h'.write.trans h.write
  err := h'.err.trans h.err
  bcs := h'.bcs.trans h.bcs
  total := h'.total.trans h.total
  clusters := h.clusters.trans h'.clusters

/-- How far the position can go. -/
def reach (f : Fil) : ℕ :=
  (f.clusters + if f.write then f.fs.free else 0) * f.fs.bcs

theorem clusters_mul_le_reach (f : Fil) : f.clusters * f.fs.bcs ≤ f.reach :=
  Nat.mul_le_mul_right _ (Nat.le_add_right _ _)

theorem Grown.reach_eq (h : Grown f f') (hw : f.write = true) : f'.reach = f.reach := by
  simp [reach, h.write, hw, h.bcs, h.total]

/-- The position is in the chain, and `clust` is its cluster. -/
structure Placed (f : Fil) : Prop where
  fptr_le : f.fptr ≤ f.clusters * f.fs.bcs
  clust : 0 < f.fptr → f.clust = (f.fptr - 1) / f.fs.bcs + 1

/-- Neither the position nor its cluster matters. -/
theorem Grown.move (h : Grown f f') (fptr clust : ℕ) :
    Grown f { f' with fptr := fptr, clust := clust } :=
  ⟨h.objsize, h.write, h.err, h.bcs, h.total, h.clusters⟩

theorem Grown.refl (f : Fil) : Grown f f :=
  ⟨rfl, rfl, rfl, rfl, rfl, le_rfl⟩

/-- The way ends at the offset or at the end of what can be reached. -/
def Arrives (f : Fil) (ofs : ℕ) (r : FResult × Fil) : Prop :=
  ∃ f', r = (.ok, f') ∧ Grown f f' ∧ Placed f' ∧ f'.fptr = min ofs f.reach

/-- A way from a later place is a way from here. -/
theorem Arrives.of_grown {r : FResult × Fil} (hg : Grown f f') (hreach : f'.reach = f.reach)
    (h : Arrives f' ofs r) : Arrives f ofs r := by
  obtain ⟨f₃, hr, hg₃, hp, hfptr⟩ := h
  exact ⟨f₃, hr, hg.trans hg₃, hp, hreach ▸ hfptr⟩

/-- **What `create_chain` does**: there is a next cluster, and it may be a new one, unless the disk
is full. -/
theorem createChain_spec (f : Fil) (clst : ℕ) (hle : clst ≤ f.clusters)
    (h0 : clst = 0 → f.clusters = 0) :
    (f.createChain clst = (0, f) ∧ clst = f.clusters ∧ f.fs.free = 0) ∨
      ∃ f', f.createChain clst = (clst + 1, f') ∧ clst + 1 ≤ f'.clusters ∧ f'.fptr = f.fptr ∧
        Grown f f' := by
  unfold createChain
  split_ifs with hnext hfree
  · exact .inr ⟨f, rfl, hnext.2, rfl, .refl f⟩
  · exact .inl ⟨rfl, by omega, hfree⟩
  · refine .inr ⟨_, rfl, le_rfl, rfl, ⟨rfl, rfl, rfl, rfl, ?_, ?_⟩⟩
    · dsimp only
      omega
    · dsimp only
      omega

/-- A position within the `k + 1`st cluster has that cluster. -/
theorem cluster_of_add {k b o : ℕ} (ho : 0 < o) (hob : o ≤ b) : (k * b + o - 1) / b = k := by
  have : k * b + o - 1 = (o - 1) + b * k := by
    rw [mul_comm b k]
    omega
  rw [this, Nat.add_mul_div_left _ _ (by omega), Nat.div_eq_of_lt (by omega), Nat.zero_add]

theorem followChain_of_le (h : ofs ≤ f.fs.bcs) :
    f.followChain clst ofs = (.ok, { f with fptr := f.fptr + ofs }) := by
  rw [followChain, if_neg (by omega)]

theorem followChain_of_full {c : Fil} (h : f.fs.bcs < ofs) (hw : f.write = true)
    (hc : createChain { f with fptr := f.fptr + f.fs.bcs } clst = (0, c)) :
    f.followChain clst ofs = (.ok, c) := by
  rw [followChain, if_pos h]
  dsimp only
  rw [if_pos hw, hc]
  rfl

theorem followChain_of_create {c : Fil} {n : ℕ} (h : f.fs.bcs < ofs) (hw : f.write = true)
    (hc : createChain { f with fptr := f.fptr + f.fs.bcs } clst = (n + 1, c)) :
    f.followChain clst ofs =
      followChain { c with clust := n + 1 } (n + 1) (ofs - f.fs.bcs) := by
  rw [followChain, if_pos h]
  dsimp only
  rw [if_pos hw, hc]
  rfl

theorem followChain_of_next (h : f.fs.bcs < ofs) (hw : f.write = false)
    (hlt : clst < f.clusters) :
    f.followChain clst ofs =
      followChain { f with fptr := f.fptr + f.fs.bcs, clust := clst + 1 } (clst + 1)
        (ofs - f.fs.bcs) := by
  rw [followChain, if_pos h]
  simp [hw, getFat, hlt]

/-- The offset is in the current cluster. -/
theorem arrives_here {k : ℕ} (hle : k + 1 ≤ f.clusters) (hfptr : f.fptr = k * f.fs.bcs)
    (hclust : f.clust = k + 1) (hofs : 0 < ofs) (hnear : ofs ≤ f.fs.bcs) :
    Arrives f (f.fptr + ofs) (f.followChain (k + 1) ofs) := by
  have hreach := f.clusters_mul_le_reach
  have hhere : (k + 1) * f.fs.bcs ≤ f.clusters * f.fs.bcs := Nat.mul_le_mul_right _ hle
  rw [Nat.succ_mul] at hhere
  refine ⟨_, followChain_of_le hnear, (Grown.refl f).move _ _, ⟨?_, ?_⟩, ?_⟩
  · dsimp only
    omega
  · intro _
    dsimp only
    rw [hfptr, hclust, cluster_of_add hofs hnear]
  · dsimp only
    omega

/-- In write mode the chain is stretched, unless the disk is full. -/
theorem arrives_or_create {k : ℕ} (hle : k + 1 ≤ f.clusters) (hfptr : f.fptr = k * f.fs.bcs)
    (hclust : f.clust = k + 1) (hfar : f.fs.bcs < ofs) (hw : f.write = true) :
    Arrives f (f.fptr + ofs) (f.followChain (k + 1) ofs) ∨
      ∃ f₂, f.followChain (k + 1) ofs = f₂.followChain (k + 2) (ofs - f.fs.bcs) ∧ Grown f f₂ ∧
        f₂.reach = f.reach ∧ k + 2 ≤ f₂.clusters ∧ f₂.fptr = (k + 1) * f.fs.bcs ∧
        f₂.clust = k + 2 := by
  have hgrown := (Grown.refl f).move (f.fptr + f.fs.bcs) f.clust
  have hsucc : (k + 1) * f.fs.bcs = k * f.fs.bcs + f.fs.bcs := Nat.succ_mul _ _
  obtain ⟨hc, hend, hfree⟩ | ⟨f₂, hc, hle₂, hfptr₂, hg⟩ :=
    createChain_spec { f with fptr := f.fptr + f.fs.bcs } (k + 1) hle (by omega)
  · have hreach : f.reach = (k + 1) * f.fs.bcs := by
      dsimp only at hend hfree
      rw [reach, if_pos hw, hfree, ← hend, Nat.add_zero]
    have hhere := f.clusters_mul_le_reach
    refine .inl ⟨_, followChain_of_full hfar hw hc, hgrown, ⟨?_, ?_⟩, ?_⟩
    · dsimp only at hend ⊢
      rw [← hend, hsucc, hfptr]
    · intro _
      dsimp only
      rw [hfptr, hclust, cluster_of_add f.fs.bcs_pos le_rfl]
    · dsimp only
      omega
  · have hg' : Grown f { f₂ with clust := k + 2 } := (hgrown.trans hg).move f₂.fptr (k + 2)
    refine .inr ⟨_, followChain_of_create hfar hw hc, hg', hg'.reach_eq hw, hle₂, ?_, rfl⟩
    dsimp only at hfptr₂ ⊢
    rw [hfptr₂, hsucc, hfptr]

/-- In read mode the chain is as long as the offset needs it. -/
theorem next_of_read {k : ℕ} (hfptr : f.fptr = k * f.fs.bcs) (hfar : f.fs.bcs < ofs)
    (hw : f.write = false) (hin : f.fptr + ofs ≤ f.clusters * f.fs.bcs) :
    ∃ f₂, f.followChain (k + 1) ofs = f₂.followChain (k + 2) (ofs - f.fs.bcs) ∧ Grown f f₂ ∧
      f₂.reach = f.reach ∧ k + 2 ≤ f₂.clusters ∧ f₂.fptr = (k + 1) * f.fs.bcs ∧
      f₂.clust = k + 2 := by
  have hsucc : (k + 1) * f.fs.bcs = k * f.fs.bcs + f.fs.bcs := Nat.succ_mul _ _
  have hlt : k + 1 < f.clusters := by
    have : (k + 1) * f.fs.bcs < f.clusters * f.fs.bcs := by omega
    exact Nat.lt_of_mul_lt_mul_right this
  refine ⟨_, followChain_of_next hfar hw hlt, (Grown.refl f).move _ _, rfl, hlt, ?_, rfl⟩
  dsimp only
  rw [hsucc, hfptr]

/-- **The cluster following loop** arrives. -/
theorem arrives_followChain (f : Fil) (k ofs dest : ℕ) (hto : f.fptr + ofs = dest)
    (hle : k + 1 ≤ f.clusters) (hfptr : f.fptr = k * f.fs.bcs) (hclust : f.clust = k + 1)
    (hofs : 0 < ofs) (hread : f.write = false → dest ≤ f.clusters * f.fs.bcs) :
    Arrives f dest (f.followChain (k + 1) ofs) := by
  induction ofs using Nat.strong_induction_on generalizing f k with
  | _ ofs ih =>
    by_cases hfar : f.fs.bcs < ofs
    · have hstep : Arrives f (f.fptr + ofs) (f.followChain (k + 1) ofs) ∨
          ∃ f₂, f.followChain (k + 1) ofs = f₂.followChain (k + 2) (ofs - f.fs.bcs) ∧
            Grown f f₂ ∧ f₂.reach = f.reach ∧ k + 2 ≤ f₂.clusters ∧
            f₂.fptr = (k + 1) * f.fs.bcs ∧ f₂.clust = k + 2 := by
        cases hw : f.write with
        | true => exact arrives_or_create hle hfptr hclust hfar hw
        | false => exact .inr (next_of_read hfptr hfar hw (hto ▸ hread hw))
      obtain hdone | ⟨f₂, heq, hg, hreach, hle₂, hfptr₂, hclust₂⟩ := hstep
      · exact hto ▸ hdone
      · have hb := f.fs.bcs_pos
        have hto₂ : f₂.fptr + (ofs - f.fs.bcs) = dest := by
          rw [hfptr₂, Nat.succ_mul]
          omega
        have hread₂ : f₂.write = false → dest ≤ f₂.clusters * f₂.fs.bcs := by
          intro hw
          rw [hg.bcs]
          exact (hread (hg.write ▸ hw)).trans (Nat.mul_le_mul_right _ hg.clusters)
        rw [heq]
        exact .of_grown hg hreach (ih (ofs - f.fs.bcs) (by omega) f₂ (k + 1) hto₂ hle₂
          (by rw [hfptr₂, hg.bcs]) hclust₂ (by omega) hread₂)
    · exact hto ▸ arrives_here hle hfptr hclust hofs (by omega)

/-! ### `f_lseek` -/

/-- An open file that no error has hit. -/
structure Valid (f : Fil) : Prop extends Placed f where
  err : f.err = .ok
  fptr_le_objsize : f.fptr ≤ f.objsize
  objsize_le : f.objsize ≤ f.clusters * f.fs.bcs
  objsize_lt : f.objsize < 2 ^ 32

theorem sclust_eq_zero_iff : f.sclust = 0 ↔ f.clusters = 0 := by
  unfold sclust
  split_ifs with h <;> simp [h]

theorem seekCluster_of_near {ifptr : ℕ}
    (h : ifptr > 0 ∧ (ofs - 1) / f.fs.bcs ≥ (ifptr - 1) / f.fs.bcs) (hclust : f.clust ≠ 0) :
    f.seekCluster ifptr ofs =
      followChain { f with fptr := (ifptr - 1) / f.fs.bcs * f.fs.bcs } f.clust
        (ofs - (ifptr - 1) / f.fs.bcs * f.fs.bcs) := by
  unfold seekCluster
  dsimp only
  rw [if_pos h, if_pos hclust]

theorem seekCluster_of_first {ifptr : ℕ}
    (h : ¬(ifptr > 0 ∧ (ofs - 1) / f.fs.bcs ≥ (ifptr - 1) / f.fs.bcs)) (hc : f.clusters ≠ 0) :
    f.seekCluster ifptr ofs = followChain { f with clust := 1 } 1 ofs := by
  have hs : f.sclust ≠ 0 := mt sclust_eq_zero_iff.mp hc
  have hs' : f.sclust = 1 := if_neg hc
  unfold seekCluster
  dsimp only
  rw [if_neg h, if_neg hs]
  dsimp only
  rw [if_pos hs, hs']

theorem seekCluster_of_create {ifptr n : ℕ} {c : Fil}
    (h : ¬(ifptr > 0 ∧ (ofs - 1) / f.fs.bcs ≥ (ifptr - 1) / f.fs.bcs)) (h0 : f.clusters = 0)
    (hc : f.createChain 0 = (n + 1, c)) :
    f.seekCluster ifptr ofs = followChain { c with clust := n + 1 } (n + 1) ofs := by
  unfold seekCluster
  dsimp only
  rw [if_neg h, if_pos (sclust_eq_zero_iff.mpr h0), hc]
  rfl

theorem seekCluster_of_full {ifptr : ℕ}
    (h : ¬(ifptr > 0 ∧ (ofs - 1) / f.fs.bcs ≥ (ifptr - 1) / f.fs.bcs)) (h0 : f.clusters = 0)
    (hc : f.createChain 0 = (0, f)) :
    f.seekCluster ifptr ofs = (.ok, { f with clust := 0 }) := by
  unfold seekCluster
  dsimp only
  rw [if_neg h, if_pos (sclust_eq_zero_iff.mpr h0), hc]
  rfl

/-- From the current cluster. -/
theorem arrives_near {ifptr : ℕ} (hle : ifptr ≤ f.clusters * f.fs.bcs)
    (hclust : f.clust = (ifptr - 1) / f.fs.bcs + 1) (hofs : 0 < ofs)
    (hread : f.write = false → ofs ≤ f.clusters * f.fs.bcs)
    (hnear : ifptr > 0 ∧ (ofs - 1) / f.fs.bcs ≥ (ifptr - 1) / f.fs.bcs) :
    Arrives f ofs (f.seekCluster ifptr ofs) := by
  have hb := f.fs.bcs_pos
  have hne : f.clust ≠ 0 := by
    rw [hclust]
    exact Nat.succ_ne_zero _
  have hk : (ifptr - 1) / f.fs.bcs < f.clusters := by
    rw [Nat.div_lt_iff_lt_mul hb]
    omega
  have hstart : (ifptr - 1) / f.fs.bcs * f.fs.bcs ≤ ofs - 1 :=
    (Nat.le_div_iff_mul_le hb).mp hnear.2
  have hto : (ifptr - 1) / f.fs.bcs * f.fs.bcs + (ofs - (ifptr - 1) / f.fs.bcs * f.fs.bcs) =
      ofs := by
    omega
  have hway := arrives_followChain { f with fptr := (ifptr - 1) / f.fs.bcs * f.fs.bcs }
    ((ifptr - 1) / f.fs.bcs) _ ofs hto hk rfl hclust (by omega) hread
  rw [← hclust] at hway
  rw [seekCluster_of_near hnear hne]
  exact .of_grown ((Grown.refl f).move ((ifptr - 1) / f.fs.bcs * f.fs.bcs) f.clust) rfl hway

/-- From the first cluster, which is made if there is none. -/
theorem arrives_first {ifptr : ℕ} (hfptr : f.fptr = 0) (hofs : 0 < ofs)
    (hread : f.write = false → ofs ≤ f.clusters * f.fs.bcs)
    (hback : ¬(ifptr > 0 ∧ (ofs - 1) / f.fs.bcs ≥ (ifptr - 1) / f.fs.bcs)) :
    Arrives f ofs (f.seekCluster ifptr ofs) := by
  by_cases h0 : f.clusters = 0
  · have hw : f.write = true := by
      by_contra hw
      have := hread (Bool.not_eq_true _ ▸ hw)
      rw [h0] at this
      omega
    obtain ⟨hc, -, hfree⟩ | ⟨c, hc, hlen, hcfptr, hg⟩ :=
      createChain_spec f 0 (Nat.zero_le _) (fun _ => h0)
    · have hreach : f.reach = 0 := by
        simp [reach, h0, hfree]
      rw [seekCluster_of_full hback h0 hc]
      refine ⟨_, rfl, (Grown.refl f).move _ _, ⟨?_, ?_⟩, ?_⟩
      · simp [hfptr]
      · simp [hfptr]
      · simp [hfptr, hreach]
    · have hg' : Grown f { c with clust := 1 } := hg.move c.fptr 1
      have hcw : c.write = true := hg.write.trans hw
      rw [seekCluster_of_create hback h0 hc]
      exact .of_grown hg' (hg'.reach_eq hw) (arrives_followChain { c with clust := 1 } 0 ofs ofs
        (by simp [hcfptr, hfptr]) hlen (by simp [hcfptr, hfptr]) rfl hofs (by simp [hcw]))
  · rw [seekCluster_of_first hback h0]
    exact .of_grown ((Grown.refl f).move f.fptr 1) rfl (arrives_followChain { f with clust := 1 } 0
      ofs ofs (by simp [hfptr]) (Nat.one_le_iff_ne_zero.mpr h0) (by simp [hfptr]) rfl hofs hread)

/-- **From wherever it starts**, the seek arrives. -/
theorem arrives_seekCluster (f : Fil) (ifptr ofs : ℕ) (hfptr : f.fptr = 0)
    (hle : ifptr ≤ f.clusters * f.fs.bcs)
    (hclust : 0 < ifptr → f.clust = (ifptr - 1) / f.fs.bcs + 1) (hofs : 0 < ofs)
    (hread : f.write = false → ofs ≤ f.clusters * f.fs.bcs) :
    Arrives f ofs (f.seekCluster ifptr ofs) := by
  by_cases hnear : ifptr > 0 ∧ (ofs - 1) / f.fs.bcs ≥ (ifptr - 1) / f.fs.bcs
  · exact arrives_near hle (hclust hnear.1) hofs hread hnear
  · exact arrives_first hfptr hofs hread hnear

/-- How far `f_lseek` goes: to the end of a file that is open for reading, and as far as there are
clusters for one that is open for writing. -/
def limit (f : Fil) : ℕ :=
  if f.write then (f.clusters + f.fs.free) * f.fs.bcs else f.objsize

theorem Valid.objsize_le_limit (hv : Valid f) : f.objsize ≤ f.limit := by
  unfold limit
  split_ifs with hw
  · have := f.clusters_mul_le_reach
    rw [reach, if_pos hw] at this
    exact hv.objsize_le.trans this
  · exact le_rfl

theorem Valid.extend {r : Fil} (hv : Valid f) (hg : Grown f r) (hp : Placed r)
    (hlt : r.fptr < 2 ^ 32) : Valid r.extend := by
  have hmul : f.clusters * f.fs.bcs ≤ r.clusters * r.fs.bcs := by
    rw [hg.bcs]
    exact Nat.mul_le_mul_right _ hg.clusters
  have hsize := hg.objsize
  have := hv.objsize_le
  have := hv.objsize_lt
  have herr := hg.err.trans hv.err
  unfold Fil.extend
  split_ifs with h
  · exact ⟨⟨hp.fptr_le, hp.clust⟩, herr, le_rfl, hp.fptr_le, hlt⟩
  · exact ⟨hp, herr, not_lt.mp h, by omega, by omega⟩

@[simp]
theorem extend_fptr (f : Fil) : f.extend.fptr = f.fptr := by
  unfold extend
  split_ifs <;> rfl

/-- **What `f_lseek` does**: it succeeds, at the offset or at the limit. -/
theorem lseek_spec (hv : Valid f) (hofs : ofs < 2 ^ 32) :
    ∃ f', f.lseek ofs = (.ok, f') ∧ Valid f' ∧ f'.fptr = min ofs f.limit := by
  have hlimit := hv.objsize_le_limit
  have hsize := hv.objsize_le
  have hpos := hv.fptr_le_objsize
  have hlt := hv.objsize_lt
  unfold lseek
  rw [if_neg (by simp [hv.err])]
  dsimp only
  generalize hclip : (if ofs > f.objsize ∧ (!f.write) = true then f.objsize else ofs) = ofs'
  have hmin : min ofs' f.reach = min ofs f.limit ∧ ofs' ≤ ofs ∧
      (f.write = false → ofs' ≤ f.objsize) := by
    have := f.clusters_mul_le_reach
    rw [← hclip]
    unfold limit reach at *
    cases hw : f.write with
    | true => simp
    | false =>
      simp only [hw, Bool.not_false, and_true, Nat.add_zero, Bool.false_eq_true, if_false,
        gt_iff_lt] at this ⊢
      split_ifs <;> omega
  by_cases h0 : 0 < ofs'
  · obtain ⟨r, hr, hg, hp, hfptr⟩ := arrives_seekCluster { f with fptr := 0 }
      f.fptr ofs' rfl (hpos.trans hsize) hv.clust h0
      (fun hw => (hmin.2.2 hw).trans hsize)
    have hfptr' : r.fptr = min ofs f.limit := hfptr.trans hmin.1
    rw [if_pos h0, hr]
    refine ⟨r.extend, rfl, hv.extend ⟨hg.objsize, hg.write, hg.err, hg.bcs, hg.total, hg.clusters⟩
      hp (by omega), ?_⟩
    rw [extend_fptr, hfptr']
  · have hzero : min ofs f.limit = 0 := by
      rw [← hmin.1]
      omega
    rw [if_neg h0]
    refine ⟨extend { f with fptr := 0 }, rfl, hv.extend ⟨rfl, rfl, rfl, rfl, rfl, le_rfl⟩
      ⟨Nat.zero_le _, fun h => absurd h (Nat.lt_irrefl 0)⟩ (Nat.two_pow_pos 32), ?_⟩
    rw [extend_fptr, hzero]

end Fil

/-! ### The file classes -/

namespace LittleFSFileImpl

variable {l : LittleFSFileImpl} {pos : UInt32} {mode : SeekMode}

/-- The sum of the offset and the origin of the mode. -/
def there (l : LittleFSFileImpl) (pos : UInt32) (mode : SeekMode) : ℕ :=
  wrap (origin l.position l.size mode + pos.toNat)

theorem seek_of_le (ho : l.opened = true) (h : l.there pos mode ≤ l.lfs.fileMax) :
    (l.seek pos mode).1 = true ∧ (l.seek pos mode).2.position = l.there pos mode := by
  simp only [there, position, size, ho, Bool.not_true, Bool.false_eq_true, if_false] at h ⊢
  obtain ⟨hres, hpos⟩ := LfsFile.seek_of_le h
  simp [seek, ho, hres, hpos]

theorem seek_of_gt (ho : l.opened = true) (h : l.lfs.fileMax < l.there pos mode) :
    (l.seek pos mode).1 = false ∧ (l.seek pos mode).2.position = l.position := by
  simp only [there, position, size, ho, Bool.not_true, Bool.false_eq_true, if_false] at h ⊢
  simp [seek, ho, LfsFile.seek_of_gt h, lfsErrInval]

end LittleFSFileImpl

namespace FilFileImpl

variable {g : FilFileImpl} {pos : UInt32} {mode : SeekMode}

theorem target_lt (g : FilFileImpl) (pos : UInt32) (mode : SeekMode) :
    g.target pos mode < 2 ^ 32 := by
  cases mode with
  | seekSet => exact pos.toNat_lt
  | seekCur => exact wrap_lt _
  | seekEnd => exact wrap_lt _

/-- **A FAT file** accepts what it can reach, and goes as far as it can in any case. -/
theorem seek_spec (ho : g.opened = true) (hv : g.fil.Valid) (pos : UInt32) (mode : SeekMode) :
    (g.seek pos mode).1 = decide (g.target pos mode ≤ g.fil.limit) ∧
      (g.seek pos mode).2.position = min (g.target pos mode) g.fil.limit := by
  obtain ⟨f', hf', -, hfptr⟩ := Fil.lseek_spec hv (g.target_lt pos mode)
  simp [seek, ho, hf', hfptr, position]

/-- The offset leads beyond what the file can reach. -/
def Beyond (g : FilFileImpl) (pos : UInt32) : SeekMode → Prop
  | .seekSet => g.fil.limit < pos.toNat
  | .seekCur => g.fil.limit < wrap (g.position + pos.toNat)
  | .seekEnd => g.size < pos.toNat

end FilFileImpl

/-! ### Agreement -/

section

variable {l : LittleFSFileImpl} {f s g : FilFileImpl} {pos : UInt32} {mode : SeekMode}

/-- Open files of the same size and at the same position, on volumes that are in order. -/
structure Alike (l : LittleFSFileImpl) (f s : FilFileImpl) : Prop where
  opened : l.opened = true ∧ f.opened = true ∧ s.opened = true
  valid : l.size ≤ l.lfs.fileMax ∧ f.fil.Valid ∧ s.fil.Valid
  position : f.position = l.position ∧ s.position = l.position
  size : f.size = l.size ∧ s.size = l.size

/-- The three accept or refuse together, end at one position, and stay where they are if they
refuse. -/
def Agree (l : LittleFSFileImpl) (f s : FilFileImpl) (pos : UInt32) (mode : SeekMode) : Prop :=
  (l.seek pos mode).1 = (FatFSFileImpl.seek f pos mode).1 ∧
    (l.seek pos mode).1 = (SDFSFileImpl.seek s pos mode).1 ∧
    ((l.seek pos mode).1 = true →
      (FatFSFileImpl.seek f pos mode).2.position = (l.seek pos mode).2.position ∧
        (SDFSFileImpl.seek s pos mode).2.position = (l.seek pos mode).2.position) ∧
    ((l.seek pos mode).1 = false →
      (l.seek pos mode).2.position = l.position ∧
        (FatFSFileImpl.seek f pos mode).2.position = f.position ∧
        (SDFSFileImpl.seek s pos mode).2.position = s.position)

/-- The condition on one FAT file: where the sum of origin and offset is in range for LittleFS, it
is so for the volume, and `SeekEnd` has no offset; elsewhere the volume cannot go there either, and
the position is already at its limit. -/
def MeetsOn (l : LittleFSFileImpl) (g : FilFileImpl) (pos : UInt32) (mode : SeekMode) : Prop :=
  if l.there pos mode ≤ l.lfs.fileMax then
    (mode = .seekEnd → pos = 0) ∧ l.there pos mode ≤ g.fil.limit
  else g.Beyond pos mode ∧ g.fil.limit = g.position

/-- The condition on both. -/
def Meets (l : LittleFSFileImpl) (f s : FilFileImpl) (pos : UInt32) (mode : SeekMode) : Prop :=
  MeetsOn l f pos mode ∧ MeetsOn l s pos mode

/-- In range, both targets are one just if `SeekEnd` has no offset. -/
theorem target_eq_there_iff (hl : l.size ≤ l.lfs.fileMax) (hp : g.position = l.position)
    (hs : g.size = l.size) (ho : g.opened = true) (h : l.there pos mode ≤ l.lfs.fileMax) :
    g.target pos mode = l.there pos mode ↔ (mode = .seekEnd → pos = 0) := by
  have hmax : l.lfs.fileMax ≤ 2147483647 := l.lfs.fileMax_le
  have hpos := pos.toNat_lt
  have hzero : pos = 0 ↔ pos.toNat = 0 := by
    rw [← UInt32.toNat_inj]
    rfl
  simp only [FilFileImpl.position, FilFileImpl.size, ho, if_true] at hp hs
  cases mode with
  | seekSet => simp [FilFileImpl.target, LittleFSFileImpl.there, origin, wrap]
  | seekCur => simp [FilFileImpl.target, LittleFSFileImpl.there, origin, hp]
  | seekEnd =>
    simp only [FilFileImpl.target, LittleFSFileImpl.there, origin, wrap, hs, hzero,
      true_imp_iff] at h ⊢
    omega

/-- A file at its limit refuses an offset just if it leads beyond it. -/
theorem limit_lt_target_iff (hv : g.fil.Valid) (ho : g.opened = true)
    (hlim : g.fil.limit = g.position) :
    g.fil.limit < g.target pos mode ↔ g.Beyond pos mode := by
  have hpos := pos.toNat_lt
  have hlt := hv.objsize_lt
  have hle := hv.fptr_le_objsize
  have hsize := hv.objsize_le_limit
  simp only [FilFileImpl.position, ho, if_true] at hlim
  cases mode with
  | seekSet => exact Iff.rfl
  | seekCur => simp [FilFileImpl.target, FilFileImpl.Beyond, FilFileImpl.position, ho]
  | seekEnd =>
    simp only [FilFileImpl.target, FilFileImpl.Beyond, FilFileImpl.size, ho, if_true, wrap]
    omega

/-- One FAT file agrees with LittleFS. -/
def AgreeOn (l : LittleFSFileImpl) (g : FilFileImpl) (pos : UInt32) (mode : SeekMode) : Prop :=
  (l.seek pos mode).1 = (g.seek pos mode).1 ∧
    ((l.seek pos mode).1 = true → (g.seek pos mode).2.position = (l.seek pos mode).2.position) ∧
    ((l.seek pos mode).1 = false →
      (l.seek pos mode).2.position = l.position ∧ (g.seek pos mode).2.position = g.position)

theorem agree_iff_agreeOn :
    Agree l f s pos mode ↔ AgreeOn l f pos mode ∧ AgreeOn l s pos mode := by
  unfold Agree AgreeOn FatFSFileImpl.seek SDFSFileImpl.seek
  constructor
  · rintro ⟨hf, hs, haccept, hrefuse⟩
    exact ⟨⟨hf, fun h => (haccept h).1, fun h => ⟨(hrefuse h).1, (hrefuse h).2.1⟩⟩,
      ⟨hs, fun h => (haccept h).2, fun h => ⟨(hrefuse h).1, (hrefuse h).2.2⟩⟩⟩
  · rintro ⟨⟨hf, hfa, hfr⟩, hs, hsa, hsr⟩
    exact ⟨hf, hs, fun h => ⟨hfa h, hsa h⟩,
      fun h => ⟨(hfr h).1, (hfr h).2, (hsr h).2⟩⟩

theorem agreeOn_iff (hlo : l.opened = true) (hgo : g.opened = true)
    (hl : l.size ≤ l.lfs.fileMax) (hv : g.fil.Valid) (hp : g.position = l.position)
    (hs : g.size = l.size) : AgreeOn l g pos mode ↔ MeetsOn l g pos mode := by
  obtain ⟨hg, hgpos⟩ := FilFileImpl.seek_spec hgo hv pos mode
  unfold AgreeOn MeetsOn
  rw [hg, hgpos]
  by_cases h : l.there pos mode ≤ l.lfs.fileMax
  · obtain ⟨hacc, hlpos⟩ := LittleFSFileImpl.seek_of_le hlo h
    have htarget := target_eq_there_iff hl hp hs hgo h
    rw [if_pos h, hacc, hlpos, ← htarget]
    constructor
    · rintro ⟨hle, hpos, -⟩
      have hle' : g.target pos mode ≤ g.fil.limit := of_decide_eq_true hle.symm
      have hmin := hpos rfl
      omega
    · rintro ⟨heq, hle⟩
      have hle' : g.target pos mode ≤ g.fil.limit := by omega
      exact ⟨(decide_eq_true hle').symm, fun _ => by omega, fun hf => Bool.noConfusion hf⟩
  · obtain ⟨hacc, hlpos⟩ := LittleFSFileImpl.seek_of_gt hlo (not_le.mp h)
    rw [if_neg h, hacc, hlpos]
    constructor
    · rintro ⟨hgt, -, hstay⟩
      have hgt' : ¬g.target pos mode ≤ g.fil.limit := of_decide_eq_false hgt.symm
      obtain ⟨-, hmin⟩ := hstay rfl
      have hlim : g.fil.limit = g.position := by omega
      exact ⟨(limit_lt_target_iff hv hgo hlim).mp (not_le.mp hgt'), hlim⟩
    · rintro ⟨hbeyond, hlim⟩
      have hlt := (limit_lt_target_iff hv hgo hlim).mpr hbeyond
      exact ⟨(decide_eq_false (not_le.mpr hlt)).symm, fun hf => Bool.noConfusion hf,
        fun _ => ⟨rfl, by omega⟩⟩

/-- **The three file systems agree on a `seek`** just under the condition. -/
theorem agree_iff (h : Alike l f s) (pos : UInt32) (mode : SeekMode) :
    Agree l f s pos mode ↔ Meets l f s pos mode := by
  obtain ⟨hlo, hfo, hso⟩ := h.opened
  obtain ⟨hl, hfv, hsv⟩ := h.valid
  rw [agree_iff_agreeOn, Meets, agreeOn_iff hlo hfo hl hfv h.position.1 h.size.1,
    agreeOn_iff hlo hso hl hsv h.position.2 h.size.2]

end

/-! ### A file of 1024 bytes -/

/-- At its end, on LittleFS. -/
def littleExample : LittleFSFileImpl :=
  ⟨⟨lfsFileMax, le_rfl⟩, ⟨1024, 1024, false⟩, true⟩

/-- At its end, on a FAT volume with clusters of 1024 bytes, open for reading. -/
def fatExample : FilFileImpl :=
  ⟨⟨⟨2, by decide, 5⟩, 1024, 1024, 1, 1, false, .ok⟩, true⟩

theorem alike_example : Alike littleExample fatExample fatExample where
  opened := ⟨rfl, rfl, rfl⟩
  valid := by
    have hv : fatExample.fil.Valid :=
      ⟨⟨by decide, fun _ => by decide⟩, rfl, by decide, by decide, by decide⟩
    exact ⟨by decide, hv, hv⟩
  position := ⟨rfl, rfl⟩
  size := ⟨rfl, rfl⟩

/-- To go back to 100 is one thing in all three. -/
theorem agree_iff_back : Agree littleExample fatExample fatExample 100 .seekSet :=
  (agree_iff alike_example 100 .seekSet).mpr (by
    have : MeetsOn littleExample fatExample 100 .seekSet := by
      unfold MeetsOn
      rw [if_pos (by decide)]
      exact ⟨by decide, by decide⟩
    exact ⟨this, this⟩)

/-- **The file systems do not agree**: `seek(1, SeekEnd)` ends at 1025 on LittleFS and at 1023 on
the FAT volumes. -/
theorem not_agree :
    ¬∀ (l : LittleFSFileImpl) (f s : FilFileImpl), Alike l f s →
      ∀ (pos : UInt32) (mode : SeekMode), Agree l f s pos mode := by
  intro h
  obtain ⟨-, -, hpos, -⟩ := h littleExample fatExample fatExample alike_example 1 .seekEnd
  have hv := alike_example.valid.2.1
  have hf := (fatExample.seek_spec rfl hv 1 .seekEnd).2
  have hl : (littleExample.seek 1 .seekEnd).1 = true ∧
      (littleExample.seek 1 .seekEnd).2.position = 1025 := by decide
  have hend : min (fatExample.target 1 .seekEnd) fatExample.fil.limit = 1023 := by decide
  have := (hpos hl.1).1
  rw [hl.2, FatFSFileImpl.seek, hf, hend] at this
  omega

end Ch32h4.Fs
