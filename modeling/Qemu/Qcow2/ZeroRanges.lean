import Qemu.Qcow2.DiscardCalls
import Qemu.Qcow2.GuestView

namespace Qemu.Qcow2.Metadata

open Nat

variable {cfg : Config}

theorem div_clusterSize (cfg : Config) (b : Nat) :
    b / cfg.clusterSize = b / cfg.subclusterSize / cfg.subclustersPerCluster := by
  rw [Nat.div_div_eq_div_mul, cfg.subclusterSize_mul]

variable {offset b : Nat}

/-- `n` subclusters from an aligned offset, inside its cluster. -/
theorem part_bytes {n : Nat} (aligned : offset % cfg.subclusterSize = 0)
    (fits : offsetToScIndex cfg offset + n ≤ cfg.subclustersPerCluster) :
    (b / cfg.clusterSize = offset / cfg.clusterSize ∧ offsetToScIndex cfg offset ≤ offsetToScIndex cfg b ∧
        offsetToScIndex cfg b < offsetToScIndex cfg offset + n) ↔
      offset ≤ b ∧ b < offset + n * cfg.subclusterSize := by
  have positive := cfg.subclusterSize_pos
  have many := cfg.subclustersPerCluster_pos
  obtain ⟨v, rfl⟩ := dvd_of_mod_eq_zero aligned
  have start : cfg.subclusterSize * v / cfg.subclusterSize = v := Nat.mul_div_cancel_left _ positive
  have bytes : cfg.subclusterSize * v ≤ b ∧ b < cfg.subclusterSize * v + n * cfg.subclusterSize ↔
      v ≤ b / cfg.subclusterSize ∧ b / cfg.subclusterSize < v + n := by
    rw [le_div_iff_mul_le positive, div_lt_iff_lt_mul positive, add_mul, mul_comm v]
  rw [bytes, div_clusterSize, div_clusterSize, offsetToScIndex, offsetToScIndex, start]
  rw [offsetToScIndex, start] at fits
  generalize b / cfg.subclusterSize = u
  generalize cfg.subclustersPerCluster = k at many fits ⊢
  have splitU := div_add_mod u k
  have splitV := div_add_mod v k
  constructor
  · rintro ⟨same, low, high⟩
    rw [same] at splitU
    omega
  · rintro ⟨low, high⟩
    have same : u / k = v / k := by
      apply Nat.div_eq_of_lt_le
      · rw [Nat.mul_comm]
        omega
      · rw [succ_mul, mul_comm]
        omega
    rw [same] at splitU
    omega

theorem cluster_bytes (aligned : start % cfg.clusterSize = 0) :
    (start / cfg.clusterSize ≤ b / cfg.clusterSize ∧ b / cfg.clusterSize < start / cfg.clusterSize + n) ↔
      start ≤ b ∧ b < start + n * cfg.clusterSize := by
  have whole := Nat.div_mul_cancel (dvd_of_mod_eq_zero aligned)
  rw [le_div_iff_mul_le cfg.clusterSize_pos, div_lt_iff_lt_mul cfg.clusterSize_pos, add_mul, whole]

theorem le_sizeToSubclusters (cfg : Config) (bytes : Nat) :
    bytes ≤ sizeToSubclusters cfg bytes * cfg.subclusterSize := by
  have above := lt_div_mul_add (a := bytes + (cfg.subclusterSize - 1)) cfg.subclusterSize_pos
  rw [sizeToSubclusters]
  omega

variable {bytes : Nat}

theorem sizeToSubclusters_of_aligned (aligned : bytes % cfg.subclusterSize = 0) :
    sizeToSubclusters cfg bytes * cfg.subclusterSize = bytes := by
  have positive := cfg.subclusterSize_pos
  obtain ⟨n, rfl⟩ := dvd_of_mod_eq_zero aligned
  rw [sizeToSubclusters, mul_add_div positive, div_eq_of_lt (by omega), add_zero, mul_comm]

theorem le_sizeToClusters (cfg : Config) (bytes : Nat) :
    bytes ≤ sizeToClusters cfg bytes * cfg.clusterSize := by
  have above := lt_div_mul_add (a := bytes + (cfg.clusterSize - 1)) cfg.clusterSize_pos
  rw [sizeToClusters]
  omega

theorem sizeToClusters_of_aligned (aligned : bytes % cfg.clusterSize = 0) :
    sizeToClusters cfg bytes * cfg.clusterSize = bytes := by
  have positive := cfg.clusterSize_pos
  obtain ⟨n, rfl⟩ := dvd_of_mod_eq_zero aligned
  rw [sizeToClusters, mul_add_div positive, div_eq_of_lt (by omega), add_zero, mul_comm]

theorem mod_subclusterSize_of_mod (aligned : b % cfg.clusterSize = 0) : b % cfg.subclusterSize = 0 := by
  rw [← cfg.subclusterSize_mul] at aligned
  exact mod_eq_zero_of_dvd ((dvd_mul_right _ _).trans (dvd_of_mod_eq_zero aligned))

/-- A range inside one cluster, a range that ends before the end of the image, or a range to the
end. -/
inductive PartsCase (cfg : Config) (offset endOffset : Nat) : Prop where
  | short (inside : endOffset < roundUp offset cfg.clusterSize)
      (start : bodyStart cfg offset endOffset = endOffset)
      (body : bodyClusters cfg offset endOffset = 0) (tail : tailBytes cfg offset endOffset = 0)
  | inner (start : bodyStart cfg offset endOffset = roundUp offset cfg.clusterSize)
      (stop : bodyEnd cfg offset endOffset % cfg.clusterSize = 0)
      (body : bodyStart cfg offset endOffset + bodyClusters cfg offset endOffset * cfg.clusterSize =
        bodyEnd cfg offset endOffset)
      (tail : bodyEnd cfg offset endOffset + tailBytes cfg offset endOffset = endOffset)
      (small : tailBytes cfg offset endOffset < cfg.clusterSize)
      (inside : endOffset < cfg.imageSize)
  | last (start : bodyStart cfg offset endOffset = roundUp offset cfg.clusterSize)
      (body : endOffset ≤ bodyStart cfg offset endOffset + bodyClusters cfg offset endOffset *
      cfg.clusterSize)
      (tail : tailBytes cfg offset endOffset = 0) (outside : cfg.imageSize ≤ endOffset)
      (ordered : bodyStart cfg offset endOffset ≤ endOffset)

variable {endOffset : Nat}

theorem partsCase (cfg : Config) (ordered : offset ≤ endOffset) : PartsCase cfg offset endOffset := by
  have positive := cfg.clusterSize_pos
  rcases zeroHead_cases cfg ordered with ⟨start, inside⟩ | ⟨start, beyond⟩
  · have start : bodyStart cfg offset endOffset = roundUp offset cfg.clusterSize := start
    have aligned := roundUp_mod offset cfg.clusterSize
    rw [← start] at aligned inside
    by_cases last : endOffset ≥ cfg.imageSize
    · have tail : tailBytes cfg offset endOffset = 0 := if_pos last
      have stop : bodyEnd cfg offset endOffset = endOffset := by rw [bodyEnd, tail, Nat.sub_zero]
      refine .last start ?_ tail last inside
      have cover : endOffset - bodyStart cfg offset endOffset ≤
          bodyClusters cfg offset endOffset * cfg.clusterSize := by
        rw [bodyClusters, stop]
        exact le_sizeToClusters cfg _
      omega
    have small := mod_lt endOffset positive
    have below : bodyStart cfg offset endOffset ≤ endOffset - endOffset % cfg.clusterSize := by
      have whole := div_add_mod endOffset cfg.clusterSize
      have quotient := Nat.div_le_div_right (c := cfg.clusterSize) inside
      have scaled := mul_le_mul_left cfg.clusterSize quotient
      have exact_ := Nat.mul_div_cancel' (dvd_of_mod_eq_zero aligned)
      omega
    have tail : tailBytes cfg offset endOffset = endOffset % cfg.clusterSize := by
      have value : tailBytes cfg offset endOffset = endOffset - max (bodyStart cfg offset endOffset)
          (endOffset - endOffset % cfg.clusterSize) := if_neg last
      have le := mod_le endOffset cfg.clusterSize
      omega
    have le := mod_le endOffset cfg.clusterSize
    have stop : bodyEnd cfg offset endOffset = endOffset - endOffset % cfg.clusterSize := by
      rw [bodyEnd, tail]
    have stopAligned : bodyEnd cfg offset endOffset % cfg.clusterSize = 0 := by
      rw [stop]
      have whole := div_add_mod endOffset cfg.clusterSize
      rw [show endOffset - endOffset % cfg.clusterSize =
        cfg.clusterSize * (endOffset / cfg.clusterSize) by omega]
      exact mul_mod_right _ _
    refine .inner start stopAligned ?_ (by omega) (by omega) (by omega)
    rw [bodyClusters, sizeToClusters_of_aligned]
    · omega
    · exact mod_eq_zero_of_dvd (dvd_sub (dvd_of_mod_eq_zero stopAligned) (dvd_of_mod_eq_zero aligned))
  · have start : bodyStart cfg offset endOffset = endOffset := start
    have tail : tailBytes cfg offset endOffset = 0 := by
      rw [tailBytes, zeroTail]
      split
      · rfl
      · omega
    refine .short beyond start ?_ tail
    rw [bodyClusters, start, bodyEnd, tail, Nat.sub_zero, Nat.sub_self, sizeToClusters_zero]

/-- A byte in the zeroed subclusters of a partial cluster. -/
def InPart (cfg : Config) (offset bytes b : Nat) : Prop :=
  bytes ≠ 0 ∧ offset ≤ b ∧ b < offset + sizeToSubclusters cfg bytes * cfg.subclusterSize

def InBody (cfg : Config) (offset endOffset b : Nat) : Prop :=
  bodyStart cfg offset endOffset / cfg.clusterSize ≤ b / cfg.clusterSize ∧
    b / cfg.clusterSize < bodyStart cfg offset endOffset / cfg.clusterSize +
    bodyClusters cfg offset endOffset

/-- The bytes that the three parts zero. -/
def Zeroed (cfg : Config) (offset endOffset b : Nat) : Prop :=
  InPart cfg offset (zeroHead cfg offset endOffset) b ∨ InBody cfg offset endOffset b ∨
    InPart cfg (bodyEnd cfg offset endOffset) (tailBytes cfg offset endOffset) b

/-- Every byte of the range is zeroed. -/
theorem zeroed_of_inside (low : offset ≤ b) (high : b < endOffset) : Zeroed cfg offset endOffset b := by
  have head := le_sizeToSubclusters cfg (zeroHead cfg offset endOffset)
  have tail := le_sizeToSubclusters cfg (tailBytes cfg offset endOffset)
  have start : bodyStart cfg offset endOffset = offset + zeroHead cfg offset endOffset := rfl
  by_cases before : b < bodyStart cfg offset endOffset
  · exact .inl ⟨by omega, low, by omega⟩
  cases partsCase cfg (low.trans high.le) with
  | short _ here _ _ => omega
  | inner here stop body sum small inside =>
    by_cases after : bodyEnd cfg offset endOffset ≤ b
    · exact .inr (.inr ⟨by omega, after, by omega⟩)
    · refine .inr (.inl ((cluster_bytes ?_).mpr ⟨by omega, by omega⟩))
      rw [here]
      exact roundUp_mod _ _
  | last here body _ _ _ =>
    refine .inr (.inl ((cluster_bytes ?_).mpr ⟨by omega, by omega⟩))
    rw [here]
    exact roundUp_mod _ _

/-- No other byte of the image is. -/
theorem inside_of_zeroed (ordered : offset ≤ endOffset) (startAligned : offset % cfg.subclusterSize = 0)
    (endAligned : endOffset % cfg.subclusterSize = 0 ∨ cfg.imageSize ≤ endOffset)
    (image : b < cfg.imageSize) (zeroed : Zeroed cfg offset endOffset b) :
    offset ≤ b ∧ b < endOffset := by
  have start : bodyStart cfg offset endOffset = offset + zeroHead cfg offset endOffset := rfl
  have subtract : ∀ {x y : Nat}, x % cfg.subclusterSize = 0 → y % cfg.subclusterSize = 0 →
      (x - y) % cfg.subclusterSize = 0 := fun first second =>
    mod_eq_zero_of_dvd (dvd_sub (dvd_of_mod_eq_zero first) (dvd_of_mod_eq_zero second))
  have boundary : roundUp offset cfg.clusterSize % cfg.subclusterSize = 0 :=
    mod_subclusterSize_of_mod (roundUp_mod _ _)
  cases partsCase cfg ordered with
  | short _ here none noTail =>
    rcases zeroed with ⟨_, low, high⟩ | ⟨low, high⟩ | ⟨some, _⟩
    · rcases endAligned with aligned | outside
      · have whole : zeroHead cfg offset endOffset % cfg.subclusterSize = 0 := by
          rw [show zeroHead cfg offset endOffset = endOffset - offset by omega]
          exact subtract aligned startAligned
        rw [sizeToSubclusters_of_aligned whole] at high
        omega
      · omega
    · omega
    · exact absurd noTail some
  | inner here stop body sum small inside =>
    have head : zeroHead cfg offset endOffset % cfg.subclusterSize = 0 := by
      rw [show zeroHead cfg offset endOffset = roundUp offset cfg.clusterSize - offset by omega]
      exact subtract boundary startAligned
    have tail : tailBytes cfg offset endOffset % cfg.subclusterSize = 0 := by
      rw [show tailBytes cfg offset endOffset = endOffset - bodyEnd cfg offset endOffset by omega]
      rcases endAligned with aligned | outside
      · exact subtract aligned (mod_subclusterSize_of_mod stop)
      · omega
    rcases zeroed with ⟨_, low, high⟩ | body' | ⟨_, low, high⟩
    · rw [sizeToSubclusters_of_aligned head] at high
      omega
    · have range := (cluster_bytes (by rw [here]; exact roundUp_mod _ _)).mp body'
      omega
    · rw [sizeToSubclusters_of_aligned tail] at high
      omega
  | last here body none outside within =>
    rcases zeroed with ⟨_, low, high⟩ | body' | ⟨some, _⟩
    · omega
    · have range := (cluster_bytes (by rw [here]; exact roundUp_mod _ _)).mp body'
      omega
    · exact absurd none some

end Qemu.Qcow2.Metadata
