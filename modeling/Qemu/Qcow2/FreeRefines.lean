import Qemu.Qcow2.Metadata
import Qemu.Qcow2.StaleTables

/-! Freeing through the metadata caches refines the model with transparent caches: an update of
refcounts that succeeds has the effect that it has there. -/

namespace Qemu.Qcow2

open Checked List Except

/-- The image of a cached state. -/
structure Config.Of (cfg : Config) (s : FreeState) : Prop where
  clusterBits : cfg.clusterBits = s.clusterBits
  refcountMax : cfg.refcountMax = s.refcountMax
  discardPassthrough : cfg.discardPassthrough = s.discardPassthrough

/-- The refcounts and discards of a cached state, beside the tables of `m`. -/
def FreeState.forget (s : FreeState) (m : Metadata) : Metadata :=
  { m with
    refcount := s.refcount, cacheDiscards := s.cacheDiscards
    discards := s.discards, pdiscards := s.pdiscards }

variable {cfg : Config} {s later : FreeState} (m : Metadata)

theorem Config.Of.clusterSize_eq (image : cfg.Of s) : cfg.clusterSize = s.clusterSize :=
  congrArg (2 ^ ·) image.clusterBits

theorem FreeState.Counted.refines (counted : s.Counted addend decrease type (c * s.clusterSize) later)
    (image : cfg.Of s) : cfg.Of later ∧
      Metadata.updateCluster cfg addend decrease type c (s.forget m) = .ok (some (later.forget m)) := by
  obtain ⟨refcount, caches, _, released, discards, new, queue, rfl⟩ := counted
  refine ⟨⟨image.clusterBits, image.refcountMax, image.discardPassthrough⟩, ?_⟩
  have index : c * s.clusterSize / s.clusterSize = c := Nat.mul_div_cancel c (Nat.two_pow_pos _)
  rw [index] at new
  rw [FreeState.queued] at queue
  rw [Metadata.updateCluster, image.clusterSize_eq, image.refcountMax, image.discardPassthrough]
  have counts : ¬ (if decrease then s.refcount c < addend else s.refcountMax < s.refcount c + addend) ∧
      (if decrease then s.refcount c - addend else s.refcount c + addend) = refcount := by
    cases decrease <;> simpa [newRefcount] using new
  obtain ⟨inRange, value⟩ := counts
  simp only [forget, if_neg inRange, value, index]
  split
  next passed =>
    rw [if_pos (by simpa using passed)] at queue
    rw [queue]
    rfl
  next kept =>
    rw [if_neg (by simpa using kept)] at queue
    cases ok.inj queue
    rfl

theorem updateClusters_refines {cursor last : UpdateCursor} (image : cfg.Of cursor.state)
    (good : cursor.state.Good)
    (success : ¬ ret < 0) (done : updateClusters io fuel offset addend decrease type
      ((range' c n).map (· * cfg.clusterSize)) cursor = .ok (last, ret, stopped)) :
    ret = 0 ∧ Metadata.updateClusters cfg addend decrease type n c (cursor.state.forget m) =
      .ok (last.state.forget m, 0) := by
  induction n generalizing c cursor with
  | zero =>
    cases ok.inj done
    exact ⟨rfl, rfl⟩
  | succ n ih => ?_
  obtain ⟨⟨next, nextRet⟩, step, more⟩ := bind_ok.mp done
  obtain ⟨nextGood, counted⟩ := updateCluster_ok good step
  dsimp only at more
  split at more
  next failed =>
    cases ok.inj more
    exact absurd failed success
  next passed =>
    rw [image.clusterSize_eq] at counted
    obtain ⟨image, step⟩ := (counted passed).refines m image
    rw [Metadata.updateClusters, step]
    exact ih image nextGood more

/-- The clusters of a range, by their numbers. -/
theorem FreeState.clusters_eq (s : FreeState) {offset bytes : Nat} (some : bytes ≠ 0) :
    s.clusters offset bytes = (range' (offset / s.clusterSize)
      ((offset + bytes - 1) / s.clusterSize + 1 - offset / s.clusterSize)).map (· * s.clusterSize) := by
  have positive : 0 < s.clusterSize := Nat.two_pow_pos _
  have order : offset / s.clusterSize ≤ (offset + bytes - 1) / s.clusterSize :=
    Nat.div_le_div_right (by omega)
  simp only [FreeState.clusters, startOfCluster, ← Nat.sub_mul,
    Nat.mul_div_cancel _ positive, ← Nat.add_mul]
  rw [range'_eq_map_range, map_map, Nat.succ_sub order]
  rfl

theorem updateRefcount_refines {bytes : Nat} (image : cfg.Of s) (good : s.Good) (success : 0 ≤ ret)
    (done : updateRefcount io fuel depth offset bytes addend decrease type s = .ok (later, ret)) :
    Metadata.updateRefcount cfg offset bytes addend decrease type (s.forget m) =
    .ok (later.forget m, 0) := by
  obtain _ | depth := depth
  · cases done
  rw [updateRefcount, if_neg (by omega)] at done
  rw [Metadata.updateRefcount]
  by_cases none : bytes = 0
  · rw [if_pos (by simpa using none)] at done
    cases ok.inj done
    exact if_pos none
  rw [if_neg (by simpa using none)] at done
  obtain ⟨ordered, order, rest⟩ := bind_ok.mp done
  obtain ⟨⟨cursor, loopRet, stopped⟩, loop, rest⟩ := bind_ok.mp rest
  obtain ⟨put, putDone, rest⟩ := bind_ok.mp rest
  obtain ⟨_, rfl, tables⟩ := orderDecrease_ok good order
  obtain ⟨_, rfl, -⟩ := putRefcountBlock_ok putDone
  have passed : ¬ loopRet < 0 := by
    intro failed
    rw [if_pos failed] at rest
    obtain ⟨_, -, ⟨⟩⟩ := bind_ok.mp rest
    omega
  rw [if_neg passed] at rest
  cases ok.inj rest
  rw [Int.toNat_natCast, FreeState.clusters_eq _ none] at loop
  obtain ⟨rfl, clusters⟩ := updateClusters_refines m ⟨image.clusterBits, image.refcountMax,
    image.discardPassthrough⟩ (good.of_caches tables) passed (image.clusterSize_eq ▸ loop)
  refine (if_neg none).trans (bind_ok.mpr ⟨_, clusters, ?_⟩)
  change Except.ok (if cursor.state.cacheDiscards then cursor.state.forget m
    else (cursor.state.forget m).processDiscards 0, (0 : Int)) = _
  split <;> rfl

end Qemu.Qcow2
