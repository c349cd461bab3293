import Qemu.Qcow2.Bitmap
import Qemu.Qcow2.DiscardEntries

namespace Qemu.Qcow2

open Nat

/-- What reads depend on besides the image file; `inflate` gives the bytes of a compressed
cluster. -/
structure Environment where
  backingFile : Nat → UInt8
  inflate : List UInt8 → Nat → UInt8

namespace Metadata

variable (cfg : Config)

/-- The byte of an L2 entry at guest offset `b`; `none` is an error. -/
def readEntry (env : Environment) (disk : Nat → UInt8) (e : L2Entry) (b : Nat) : Option UInt8 :=
  match cfg.getSubclusterType e (offsetToScIndex cfg b) with
  | .unallocatedPlain | .unallocatedAlloc => some (if cfg.backing then env.backingFile b else 0)
  | .zeroPlain | .zeroAlloc => some 0
  | .normal => some (disk (offsetField e.entry + b % cfg.clusterSize))
  | .compressed =>
    let (coffset, csize) := cfg.parseCompressedL2Entry e.entry
    some (env.inflate ((List.range csize).map fun i => disk (coffset + i)) (b % cfg.clusterSize))
  | .invalid => none

/-- The bytes of the image file that a guest byte depends on. -/
def hostBytes (e : L2Entry) (b : Nat) : List Nat :=
  match cfg.getSubclusterType e (offsetToScIndex cfg b) with
  | .normal => [offsetField e.entry + b % cfg.clusterSize]
  | .compressed =>
    let (coffset, csize) := cfg.parseCompressedL2Entry e.entry
    (List.range csize).map (coffset + ·)
  | _ => []

def readByte (env : Environment) (disk : Nat → UInt8) (s : Metadata) (b : Nat) : Option UInt8 :=
  readEntry cfg env disk (s.entries cfg 0 (b / cfg.clusterSize)) b

/-- The bitmap of an entry is one that the code accepts. -/
def ValidEntry (e : L2Entry) : Prop := cfg.getSubclusterType e 0 ≠ .invalid

end Metadata

namespace Format

variable (fmt : Format)

theorem subclustersPerCluster_pos : 0 < fmt.subclustersPerCluster := by
  rw [subclustersPerCluster]
  split <;> decide

theorem subclusterSize_mul : fmt.subclusterSize * fmt.subclustersPerCluster = fmt.clusterSize := by
  refine Nat.div_mul_cancel ?_
  rw [subclustersPerCluster]
  split
  next sub =>
    have bits := fmt.subclusterRange sub
    exact Nat.pow_dvd_pow 2 (show 5 ≤ fmt.clusterBits by omega)
  · exact one_dvd _

theorem subclusterSize_pos : 0 < fmt.subclusterSize := by
  have product := fmt.subclusterSize_mul
  have whole := fmt.clusterSize_pos
  rcases Nat.eq_zero_or_pos fmt.subclusterSize with zero | positive
  · rw [zero] at product
    omega
  · exact positive

/-- The two halves of a bitmap do not meet. -/
theorem overlap_eq_zero (bitmap : BitVec 64) :
    (bitmap >>> 32) &&& bitmap = 0 ↔
    ∀ i < 32, ¬ (bitmap.getLsbD i = true ∧ bitmap.getLsbD (32 + i) = true) := by
  constructor
  · rintro zero i small ⟨alloc, reads⟩
    have bit := congrArg (BitVec.getLsbD · i) zero
    simp [alloc, reads] at bit
  · intro apart
    apply BitVec.eq_of_getLsbD_eq
    intro i _
    by_cases small : i < 32
    · cases alloc : bitmap.getLsbD i <;> cases reads : bitmap.getLsbD (32 + i) <;> simp_all
    · simp [BitVec.getLsbD_of_ge bitmap (32 + i) (by omega)]

theorem getClusterType_of_subclusters (subclusters : fmt.hasSubclusters = true) (word : BitVec 64) :
    fmt.getClusterType word = .compressed ∨ fmt.getClusterType word = .normal ∨
      fmt.getClusterType word = .unallocated := by
  rw [getClusterType]
  simp only [subclusters, Bool.not_true, Bool.false_eq_true, and_false, if_false]
  split
  · exact .inl rfl
  · split
    · exact .inr (.inr rfl)
    · exact .inr (.inl rfl)

section

variable {sc : Nat} (subclusters : fmt.hasSubclusters = true) (small : sc < 32)

include subclusters small

theorem getSubclusterType_normal (e : L2Entry) (normal : fmt.getClusterType e.entry = .normal)
    (valid : (e.bitmap >>> 32) &&& e.bitmap = 0) :
    fmt.getSubclusterType e sc = if e.bitmap.getLsbD (32 + sc) then .zeroAlloc
      else if e.bitmap.getLsbD sc then .normal else .unallocatedAlloc := by
  rw [getSubclusterType, if_pos subclusters, normal]
  simp only [valid, ne_eq, not_true_eq_false, if_false]
  simp only [and_oflagSubZero_ne_zero small, and_oflagSubAlloc_ne_zero (show sc < 64 by omega)]

theorem getSubclusterType_unallocated (e : L2Entry)
    (unallocated : fmt.getClusterType e.entry = .unallocated)
    (valid : e.bitmap &&& bitmapAllAlloc = 0) :
    fmt.getSubclusterType e sc = if e.bitmap.getLsbD (32 + sc) then .zeroPlain
    else .unallocatedPlain := by
  rw [getSubclusterType, if_pos subclusters, unallocated]
  simp only [valid, ne_eq, not_true_eq_false, if_false]
  simp only [and_oflagSubZero_ne_zero small]

end

theorem getClusterType_of_normal (normal : fmt.getSubclusterType e sc = .normal) :
    fmt.getClusterType e.entry = .normal := by
  cases kind : fmt.getClusterType e.entry with
  | normal => rfl
  | _ =>
    simp only [getSubclusterType, kind] at normal
    split_ifs at normal

theorem getClusterType_of_compressed (compressed : fmt.getSubclusterType e sc = .compressed) :
    fmt.getClusterType e.entry = .compressed := by
  cases kind : fmt.getClusterType e.entry with
  | compressed => rfl
  | _ =>
    simp only [getSubclusterType, kind] at compressed
    split_ifs at compressed

/-- The bytes of a range lie in the clusters it touches. -/
theorem mem_clustersOf (inside : i < length) :
    (offset + i) / fmt.clusterSize ∈ fmt.clustersOf offset length := by
  have low : offset / fmt.clusterSize ≤ (offset + i) / fmt.clusterSize := Nat.div_le_div_right (by omega)
  have high : (offset + i) / fmt.clusterSize ≤ (offset + length - 1) / fmt.clusterSize :=
    Nat.div_le_div_right (by omega)
  rw [clustersOf, List.mem_range'_1]
  omega

end Format

namespace Metadata

theorem readEntry_congr (same : ∀ byte ∈ hostBytes cfg e b, disk' byte = disk byte) :
    readEntry cfg env disk' e b = readEntry cfg env disk e b := by
  rw [hostBytes] at same
  rw [readEntry, readEntry]
  cases kind : cfg.getSubclusterType e (offsetToScIndex cfg b) with
  | normal => simpa [kind] using same
  | compressed =>
    rw [kind] at same
    dsimp only at same ⊢
    congr 2
    exact List.map_congr_left fun i member => same _ (List.mem_map_of_mem member)
  | _ => rfl

/-- A guest byte depends on the clusters of its entry only. -/
theorem hostBytes_cluster
    (aligned : cfg.getClusterType e.entry ≠ .compressed → offsetField e.entry % cfg.clusterSize = 0)
    (here : byte ∈ hostBytes cfg e b) : byte / cfg.clusterSize ∈ cfg.entryClusters e.entry := by
  rw [hostBytes] at here
  cases kind : cfg.getSubclusterType e (offsetToScIndex cfg b) with
  | normal =>
    have type := cfg.getClusterType_of_normal kind
    obtain rfl : byte = _ := by simpa [kind] using here
    have within := mod_lt b cfg.clusterSize_pos
    obtain ⟨c, value⟩ := dvd_of_mod_eq_zero (aligned (by rw [type]; nofun))
    rw [Format.entryClusters, type, value, mul_add_div cfg.clusterSize_pos, div_eq_of_lt within,
      Nat.mul_div_cancel_left _ cfg.clusterSize_pos, Nat.add_zero]
    exact List.mem_singleton_self _
  | compressed =>
    rw [kind] at here
    obtain ⟨i, inside, rfl⟩ := List.mem_map.mp here
    rw [Format.entryClusters, cfg.getClusterType_of_compressed kind]
    exact cfg.mem_clustersOf (List.mem_range.mp inside)
  | _ => simp [kind] at here

/-- What is stored in such a byte can change what is read. -/
theorem readEntry_depends (here : byte ∈ hostBytes cfg e b) : ∃ env,
    readEntry cfg env (fun x => if x = byte then 1 else 0) e b ≠ readEntry cfg env (fun _ => 0) e b := by
  refine ⟨⟨fun _ => 0, fun bytes _ => if 1 ∈ bytes then 1 else 0⟩, ?_⟩
  rw [hostBytes] at here
  rw [readEntry, readEntry]
  cases kind : cfg.getSubclusterType e (offsetToScIndex cfg b) with
  | normal =>
    obtain rfl : byte = _ := by simpa [kind] using here
    simp
  | compressed =>
    rw [kind] at here
    obtain ⟨i, inside, rfl⟩ := List.mem_map.mp here
    simpa using ⟨i, List.mem_range.mp inside, rfl⟩
  | _ => simp [kind] at here

theorem offsetToScIndex_lt (subclusters : cfg.hasSubclusters = true) (b : Nat) :
    offsetToScIndex cfg b < 32 := by
  have size : cfg.subclustersPerCluster = 32 := if_pos subclusters
  rw [offsetToScIndex, size]
  exact mod_lt _ (by decide)

/-- An entry in which every subcluster has its zero bit reads as zeroes. -/
theorem readEntry_allZeroes (subclusters : cfg.hasSubclusters = true)
    (standard : cfg.getClusterType word ≠ .compressed) (b : Nat) :
    readEntry cfg env disk ⟨word, bitmapAllZeroes⟩ b = some 0 := by
  have small := offsetToScIndex_lt subclusters b
  have bit : bitmapAllZeroes.getLsbD (32 + offsetToScIndex cfg b) = true := by
    rw [getLsbD_bitmapAllZeroes]
    simp
    omega
  rw [readEntry]
  rcases cfg.getClusterType_of_subclusters subclusters word with kind | kind | kind
  · exact absurd kind standard
  · have apart : (bitmapAllZeroes >>> 32) &&& bitmapAllZeroes = 0 := by
      rw [Format.overlap_eq_zero]
      intro i low
      simp [getLsbD_bitmapAllZeroes, low]
    rw [cfg.getSubclusterType_normal subclusters small ⟨word, bitmapAllZeroes⟩ kind apart, if_pos bit]
  · have none : bitmapAllZeroes &&& bitmapAllAlloc = 0 := by
      rw [and_bitmapAllAlloc_eq_zero]
      intro i low
      simp [getLsbD_bitmapAllZeroes, low]
    rw [cfg.getSubclusterType_unallocated subclusters small ⟨word, bitmapAllZeroes⟩ kind none, if_pos bit]

theorem readEntry_or_zero (plain : cfg.hasSubclusters = false)
    (standard : cfg.getClusterType word ≠ .compressed) (b : Nat) :
    readEntry cfg env disk ⟨word ||| oflagZero, bitmap⟩ b = some 0 := by
  rw [readEntry, Format.getSubclusterType, if_neg (by simp [plain]),
    cfg.getClusterType_or_zero plain standard]
  by_cases offset : word &&& offsetMask = 0
  · rw [if_neg (not_not.mpr offset)]
  · rw [if_pos offset]

theorem ValidEntry.bitmap (valid : ValidEntry cfg e) (subclusters : cfg.hasSubclusters = true) :
    (cfg.getClusterType e.entry = .normal → (e.bitmap >>> 32) &&& e.bitmap = 0) ∧
      (cfg.getClusterType e.entry = .unallocated → e.bitmap &&& bitmapAllAlloc = 0) := by
  rw [ValidEntry, Format.getSubclusterType, if_pos subclusters] at valid
  constructor
  · intro kind
    rw [kind] at valid
    by_contra overlap
    exact valid (if_pos overlap)
  · intro kind
    rw [kind] at valid
    by_contra alloc
    exact valid (if_pos alloc)

theorem zeroedBitmap_overlap {bitmap : BitVec 64} (fits : sc + n ≤ 32)
    (apart : (bitmap >>> 32) &&& bitmap = 0) :
    (zeroedBitmap sc n bitmap >>> 32) &&& zeroedBitmap sc n bitmap = 0 := by
  rw [Format.overlap_eq_zero] at apart ⊢
  rintro i small ⟨alloc, reads⟩
  rw [getLsbD_zeroedBitmap fits] at alloc reads
  by_cases inside : sc ≤ i ∧ i < sc + n
  · rw [if_pos inside] at alloc
    cases alloc
  · rw [if_neg inside, if_neg (by omega)] at alloc
    rw [if_neg (by omega), if_neg (by omega)] at reads
    exact apart i small ⟨alloc, reads⟩

/-- Zeroing a part of a cluster: its subclusters read as zeroes, the others as before. -/
theorem readEntry_zeroedBitmap (subclusters : cfg.hasSubclusters = true)
    (fits : sc + n ≤ 32) (standard : cfg.getClusterType e.entry ≠ .compressed)
    (valid : ValidEntry cfg e) (b : Nat) :
    readEntry cfg env disk ⟨e.entry, zeroedBitmap sc n e.bitmap⟩ b =
      if sc ≤ offsetToScIndex cfg b ∧ offsetToScIndex cfg b < sc + n then some 0
      else readEntry cfg env disk e b := by
  have small := offsetToScIndex_lt subclusters b
  obtain ⟨normal, unallocated⟩ := valid.bitmap subclusters
  rw [readEntry, readEntry]
  generalize offsetToScIndex cfg b = k at small ⊢
  have reads : (zeroedBitmap sc n e.bitmap).getLsbD (32 + k) =
      if sc ≤ k ∧ k < sc + n then true else e.bitmap.getLsbD (32 + k) := by
    rw [getLsbD_zeroedBitmap fits, if_neg (by omega)]
    by_cases inside : sc ≤ k ∧ k < sc + n
    · rw [if_pos (by omega), if_pos inside]
    · rw [if_neg (by omega), if_neg inside]
  have alloc : ¬ (sc ≤ k ∧ k < sc + n) → (zeroedBitmap sc n e.bitmap).getLsbD k = e.bitmap.getLsbD k := by
    intro outside
    rw [getLsbD_zeroedBitmap fits, if_neg outside, if_neg (by omega)]
  rcases cfg.getClusterType_of_subclusters subclusters e.entry with kind | kind | kind
  · exact absurd kind standard
  · rw [cfg.getSubclusterType_normal subclusters small ⟨e.entry, zeroedBitmap sc n e.bitmap⟩ kind
        (zeroedBitmap_overlap fits (normal kind)),
      cfg.getSubclusterType_normal subclusters small e kind (normal kind)]
    by_cases inside : sc ≤ k ∧ k < sc + n
    · rw [reads, if_pos inside, if_pos inside, if_pos rfl]
    · rw [reads, if_neg inside, if_neg inside, alloc inside]
  · have none : zeroedBitmap sc n e.bitmap &&& bitmapAllAlloc = 0 :=
      zeroedBitmap_and_allAlloc sc n (unallocated kind)
    rw [cfg.getSubclusterType_unallocated subclusters small ⟨e.entry, zeroedBitmap sc n e.bitmap⟩
      kind none, cfg.getSubclusterType_unallocated subclusters small e kind (unallocated kind)]
    by_cases inside : sc ≤ k ∧ k < sc + n
    · rw [reads, if_pos inside, if_pos inside, if_pos rfl]
    · rw [reads, if_neg inside, if_neg inside]

end Metadata

end Qemu.Qcow2
