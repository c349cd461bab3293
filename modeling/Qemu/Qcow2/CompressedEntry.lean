import Qemu.Qcow2.DiscardSafety

namespace Qemu.Qcow2

namespace Format

variable (fmt : Format)

/-- The entry that `qcow2_alloc_compressed_cluster_offset` writes, unless an assertion fails. -/
def compressedEntry (clusterOffset compressedSize : Nat) : Option (BitVec 64) :=
  let nbCsectors := (clusterOffset + compressedSize - 1) / 512 - clusterOffset / 512
  if clusterOffset % 2 ^ fmt.csizeShift = clusterOffset ∧
    nbCsectors % 2 ^ (fmt.clusterBits - 8) = nbCsectors then
    some (BitVec.ofNat 64 clusterOffset |||
      (oflagCompressed ||| BitVec.ofNat 64 nbCsectors <<< fmt.csizeShift))
  else none

/-- The fields of the entry do not overlap. -/
theorem compressedEntry_toNat (fits : offset < 2 ^ fmt.csizeShift)
    (few : sectors < 2 ^ (fmt.clusterBits - 8)) :
    (BitVec.ofNat 64 offset ||| (oflagCompressed ||| BitVec.ofNat 64 sectors <<< fmt.csizeShift)).toNat =
      2 ^ fmt.csizeShift * (2 ^ (fmt.clusterBits - 8) + sectors) + offset := by
  have range := fmt.clusterRange
  have whole : 2 ^ fmt.csizeShift * 2 ^ (fmt.clusterBits - 8) = 2 ^ 62 := by
    rw [← Nat.pow_add, csizeShift, Nat.sub_add_cancel (by omega)]
  have sectorsFit : 2 ^ fmt.csizeShift * sectors < 2 ^ 62 := by
    rw [← whole]
    exact Nat.mul_lt_mul_of_pos_left few (Nat.two_pow_pos _)
  have offsetFits : offset < 2 ^ 62 := fits.trans_le (Nat.pow_le_pow_right (by decide) (Nat.sub_le _ _))
  have flags : 2 ^ 62 ||| 2 ^ fmt.csizeShift * sectors =
    2 ^ fmt.csizeShift * (2 ^ (fmt.clusterBits - 8) + sectors) := by
    rw [Nat.mul_add, whole]
    exact (Nat.two_pow_add_eq_or_of_lt sectorsFit 1).symm
  have few' : sectors < 2 ^ 62 := few.trans_le (Nat.pow_le_pow_right (by decide) (by omega))
  rw [BitVec.toNat_or, BitVec.toNat_or, BitVec.toNat_shiftLeft, BitVec.toNat_ofNat, BitVec.toNat_ofNat,
    Nat.shiftLeft_eq, Nat.mul_comm, Nat.mod_eq_of_lt (by omega),
    Nat.mod_eq_of_lt (a := sectors) (by omega),
    Nat.mod_eq_of_lt (by omega), show oflagCompressed.toNat = 2 ^ 62 from rfl, flags, Nat.or_comm]
  exact (Nat.two_pow_add_eq_or_of_lt fits _).symm

theorem compressedEntry_parse (fits : offset < 2 ^ fmt.csizeShift) (pos : 0 < size)
    (small : size ≤ fmt.clusterSize) : ∃ entry, fmt.compressedEntry offset size = some entry ∧
    fmt.getClusterType entry = .compressed ∧ fmt.parseCompressedL2Entry entry =
      (offset, ((offset + size - 1) / 512 - offset / 512 + 1) * 512 - offset % 512) := by
  have range := fmt.clusterRange
  have few : (offset + size - 1) / 512 - offset / 512 < 2 ^ (fmt.clusterBits - 8) := by
    have sectors : fmt.clusterSize = 2 ^ (fmt.clusterBits - 9) * 512 := by
      rw [clusterSize, show 512 = 2 ^ 9 from rfl, ← Nat.pow_add, Nat.sub_add_cancel range.1]
    have twice : 2 ^ (fmt.clusterBits - 8) = 2 * 2 ^ (fmt.clusterBits - 9) := by
      rw [← Nat.pow_succ', show (fmt.clusterBits - 9).succ = fmt.clusterBits - 8 by omega]
    have positive := Nat.two_pow_pos (fmt.clusterBits - 9)
    omega
  have value := fmt.compressedEntry_toNat fits few
  refine ⟨_, if_pos ⟨Nat.mod_eq_of_lt fits, Nat.mod_eq_of_lt few⟩, ?_, ?_⟩
  · refine if_pos fun clear => ?_
    have bit := congrArg (BitVec.getLsbD · 62) clear
    simp [oflagCompressed] at bit
  · rw [parseCompressedL2Entry, value, Nat.mul_add_mod, Nat.mod_eq_of_lt fits,
      Nat.mul_add_div (Nat.two_pow_pos _), Nat.div_eq_of_lt fits]
    simp [Nat.mod_eq_of_lt few]

/-- The end of the last sector lies in the cluster of the last byte. -/
theorem clustersOf_sectors (pos : 0 < size) : fmt.clustersOf offset
    (((offset + size - 1) / 512 - offset / 512 + 1) * 512 - offset % 512) =
    fmt.clustersOf offset size := by
  have last : offset + (((offset + size - 1) / 512 - offset / 512 + 1) * 512 - offset % 512) - 1 =
      (offset + size - 1) / 512 * 512 + 511 := by omega
  have sectors : fmt.clusterSize = 512 * 2 ^ (fmt.clusterBits - 9) := by
    rw [clusterSize, show 512 = 2 ^ 9 from rfl, ← Nat.pow_add, Nat.add_sub_cancel' fmt.clusterRange.1]
  rw [clustersOf, clustersOf, last,
    sectors, ← Nat.div_div_eq_div_mul (_ * 512 + 511), ← Nat.div_div_eq_div_mul (offset + size - 1)]
  congr 4
  omega

end Format

namespace Metadata

variable {cfg : Config} {s s₁ : Metadata}

theorem updateClusters_added (done : updateClusters cfg 1 false .never n c s = .ok (s₁, 0))
    (c' : Nat) : s₁.refcount c' = s.refcount c' + (List.range' c n).count c' := by
  induction n generalizing c s with
  | zero =>
    cases Except.ok.inj done
    rfl
  | succ n ih => ?_
  rw [updateClusters, updateCluster] at done
  simp only [Bool.false_eq_true, if_false, cfg.never, and_false] at done
  split at done
  · cases Except.ok.inj done
  · rw [ih done, List.range'_succ, List.count_cons]
    by_cases here : c = c'
    · simp [here, Nat.add_comm, Nat.add_left_comm]
    · simp [here, Function.update_of_ne (Ne.symm here)]

theorem updateRefcount_added (pos : 0 < size)
    (done : updateRefcount cfg offset size 1 false .never s = .ok (s₁, 0)) (c : Nat) :
    s₁.refcount c = s.refcount c + (cfg.clustersOf offset size).count c := by
  rw [updateRefcount, if_neg pos.ne'] at done
  obtain ⟨⟨s', left⟩, loop, done⟩ := Checked.bind_ok.mp done
  by_cases finished : left = 0
  · subst finished
    cases Except.ok.inj done
    rw [Format.clustersOf, ← updateClusters_added loop c]
    split <;> rfl
  · dsimp only at done
    rw [if_neg finished, if_neg finished] at done
    obtain ⟨undone, -, ⟨⟩⟩ := Checked.bind_ok.mp done

/-- The allocation of a compressed cluster adds a reference to each cluster that it touches, and the
release of its entry takes one from each of the same clusters. -/
theorem compressedEntry_released (cfg : Config) {offset size : Nat}
    (fits : offset < 2 ^ cfg.csizeShift) (pos : 0 < size) (small : size ≤ cfg.clusterSize) :
    ∃ entry coffset csize, cfg.compressedEntry offset size = some entry ∧
      cfg.getClusterType entry = .compressed ∧ cfg.parseCompressedL2Entry entry = (coffset, csize) ∧
      coffset = offset ∧ size ≤ csize ∧ csize < size + 512 ∧
      cfg.clustersOf coffset csize = cfg.clustersOf offset size ∧
      (∀ s s₁, updateRefcount cfg offset size 1 false .never s = .ok (s₁, 0) →
        ∀ c, s₁.refcount c = s.refcount c + if c ∈ cfg.clustersOf offset size then 1 else 0) ∧
      ∀ s s₁ type, (∀ c ∈ cfg.clustersOf offset size, 1 ≤ s.refcount c) →
        freeAnyCluster cfg entry type s = .ok s₁ →
        ∀ c, s₁.refcount c + (if c ∈ cfg.clustersOf offset size then 1 else 0) = s.refcount c := by
  obtain ⟨entry, made, kind, parsed⟩ := cfg.compressedEntry_parse fits pos small
  have once (c : Nat) : (cfg.clustersOf offset size).count c =
      if c ∈ cfg.clustersOf offset size then 1 else 0 := List.Nodup.count List.nodup_range'
  refine ⟨entry, _, _, made, kind, parsed, rfl, by omega, by omega, cfg.clustersOf_sectors pos, ?_, ?_⟩
  · intro s s₁ added c
    rw [updateRefcount_added pos added c, once]
  intro s s₁ type enough done c
  have clusters : cfg.entryClusters entry = cfg.clustersOf offset size := by
    rw [Format.entryClusters, kind]
    dsimp only
    rw [parsed, cfg.clustersOf_sectors pos]
  have freed := freeAnyCluster_freed (fun plain => absurd kind plain) (clusters ▸ enough) done
  have same := freed.refcount c
  rwa [clusters, once] at same

/-- Two bytes on either side of a cluster boundary, allocated and freed again. -/
theorem compressedEntry_released_boundary : ∃ entry s₁ s₂,
    snapshotConfig.compressedEntry 0x9ff 2 = some entry ∧ snapshotConfig.clustersOf 0x9ff 2 =
    [4, 5] ∧ updateRefcount snapshotConfig 0x9ff 2 1 false .never snapshotImage = .ok (s₁, 0) ∧
    freeAnyCluster snapshotConfig entry .always s₁ = .ok s₂ ∧
    ∀ c, s₁.refcount c = snapshotImage.refcount c + (if c = 4 ∨ c = 5 then 1 else 0) ∧
      s₂.refcount c = snapshotImage.refcount c := by
  obtain ⟨entry, coffset, csize, made, kind, -, -, -, -, -, added, freed⟩ :=
    @compressedEntry_released snapshotConfig 0x9ff 2 (by decide) (by decide) (by decide)
  have clusters : snapshotConfig.clustersOf 0x9ff 2 = [4, 5] := by decide
  have stored : snapshotConfig.compressedEntry 0x9ff 2 = some 0x60000000000009ff#64 := by decide
  obtain rfl := Option.some.inj (stored.symm.trans made)
  obtain ⟨s₁, taken⟩ : ∃ s₁, updateRefcount snapshotConfig 0x9ff 2 1 false .never snapshotImage =
    .ok (s₁, 0) :=
    ⟨_, rfl⟩
  have counted := added _ _ taken
  have enough : ∀ c ∈ snapshotConfig.clustersOf 0x9ff 2, 1 ≤ s₁.refcount c := by
    intro c member
    rw [counted c, if_pos member]
    exact Nat.le_add_left 1 _
  obtain ⟨s₂, given⟩ : ∃ s₂, freeAnyCluster snapshotConfig 0x60000000000009ff#64 .always s₁ = .ok s₂ := by
    have parsed : snapshotConfig.parseCompressedL2Entry 0x60000000000009ff#64 = (0x9ff, 513) := by decide
    cases taken
    rw [freeAnyCluster, kind]
    dsimp only
    rw [parsed]
    exact ⟨_, rfl⟩
  refine ⟨_, _, _, made, clusters, taken, given, fun c => ?_⟩
  have released := freed _ _ _ enough given c
  rw [counted c] at released
  simp only [clusters, List.mem_cons, List.not_mem_nil, or_false] at counted released
  exact ⟨counted c, Nat.add_right_cancel released⟩

end Metadata

end Qemu.Qcow2
