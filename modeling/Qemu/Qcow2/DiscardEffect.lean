import Qemu.Qcow2.Bitmap
import Qemu.Qcow2.DiscardCalls

namespace Qemu.Qcow2

open List

/-- The host clusters that hold data of an L2 entry. -/
def Format.dataClusters (fmt : Format) (e : L2Entry) : List Nat :=
  match fmt.getClusterType e.entry with
  | .compressed => fmt.entryClusters e.entry
  | .normal =>
    if fmt.hasSubclusters ∧ e.bitmap &&& bitmapAllAlloc = 0 then [] else fmt.entryClusters e.entry
  | .zeroAlloc | .zeroPlain | .unallocated => []

namespace Metadata

/-- A request from the guest. -/
inductive Request where
  | discard (offset bytes : Nat) (type : DiscardType) (fullDiscard : Bool)
  | zeroize (offset bytes : Nat) (mayUnmap : Bool)

def Request.run (cfg : Config) (alloc : Allocator cfg.toFormat) : Request → Metadata →
    Except Stop (Metadata × Int)
  | .discard offset bytes type fullDiscard => clusterDiscard cfg alloc offset bytes type fullDiscard
  | .zeroize offset bytes mayUnmap => subclusterZeroize cfg alloc offset bytes mayUnmap

/-- An entry whose cluster a request can discard while it keeps the reference. -/
def Discardable (cfg : Config) (e : L2Entry) : Prop :=
  cfg.getClusterType e.entry = .normal ∧ (cfg.hasSubclusters = true → e.bitmap ≠ bitmapAllZeroes)

instance (cfg : Config) (e : L2Entry) : Decidable (Discardable cfg e) :=
  inferInstanceAs (Decidable (_ ∧ _))

end Metadata

namespace Format

variable (fmt : Format)

theorem dataClusters_subset (e : L2Entry) : fmt.dataClusters e ⊆ fmt.entryClusters e.entry := by
  rw [dataClusters]
  split
  · exact List.Subset.refl _
  · split
    · exact nil_subset _
    · exact List.Subset.refl _
  all_goals exact nil_subset _

theorem dataClusters_of_unmapped (unmapped : fmt.entryClusters e.entry = []) : fmt.dataClusters e = [] :=
  subset_nil.mp (unmapped ▸ fmt.dataClusters_subset e)

theorem dataClusters_of_no_alloc (subclusters : fmt.hasSubclusters = true)
    (standard : fmt.getClusterType e.entry ≠ .compressed) (none : e.bitmap &&& bitmapAllAlloc = 0) :
    fmt.dataClusters e = [] := by
  rw [dataClusters]
  split
  next compressed => exact absurd compressed standard
  · rw [if_pos ⟨subclusters, none⟩]
  all_goals rfl

theorem dataClusters_or_zero (plain : fmt.hasSubclusters = false)
    (standard : fmt.getClusterType word ≠ .compressed) :
    fmt.dataClusters ⟨word ||| oflagZero, bitmap⟩ = [] := by
  rw [dataClusters, fmt.getClusterType_or_zero plain standard]
  split <;> split at * <;> first | rfl | contradiction

end Format

namespace Metadata

/-- Entries that read as zeroes: all zero bits set, or the zero flag. -/
def zeroForm (cfg : Config) (word bitmap : BitVec 64) : L2Entry :=
  if cfg.hasSubclusters then ⟨word, bitmapAllZeroes⟩ else ⟨word ||| oflagZero, bitmap⟩

variable {cfg : Config} {s s₁ s₂ : Metadata} {e : L2Entry}

theorem zeroForm_data (standard : cfg.getClusterType word ≠ .compressed) :
    cfg.dataClusters (zeroForm cfg word bitmap) = [] := by
  rw [zeroForm]
  split
  next sub =>
    exact cfg.dataClusters_of_no_alloc sub standard (show bitmapAllZeroes &&& bitmapAllAlloc = 0 by
      decide)
  next plain => exact cfg.dataClusters_or_zero (by simpa using plain) standard

theorem discardedEntry_data (type : DiscardType) (fullDiscard : Bool) (e : L2Entry) :
    discardedEntry cfg type fullDiscard e = e ∨
    cfg.dataClusters (discardedEntry cfg type fullDiscard e) = [] := by
  by_cases same : e = discardedEntry cfg type fullDiscard e
  · exact .inl same.symm
  right
  by_cases keep : discardKeepsReference cfg type fullDiscard e = true
  · obtain ⟨standard, whole, noUnref, -⟩ := discardKeepsReference_iff.mp keep
    rw [discardedEntry, whole, if_neg Bool.false_ne_true] at same ⊢
    rw [whole] at keep
    rw [if_pos (cfg.noUnrefVersion noUnref)] at same ⊢
    split
    · exact zeroForm_data standard
    next unmapped =>
      rw [if_neg unmapped] at same
      exact absurd rfl same
  · exact cfg.dataClusters_of_unmapped (discardedEntry_released same keep).1

theorem zeroedEntry_data (mayUnmap : Bool) (e : L2Entry) :
    cfg.dataClusters (zeroedEntry cfg mayUnmap e) = [] := by
  by_cases unmapped : zeroUnmaps cfg mayUnmap e = true ∧ zeroKeepsReference cfg e ≠ true
  · exact cfg.dataClusters_of_unmapped (zeroedEntry_unmapped unmapped.1 unmapped.2).1
  · have standard := (zeroedEntry_mapped unmapped).1
    have stays : ¬ (zeroUnmaps cfg mayUnmap e && !zeroKeepsReference cfg e) = true := by
      simpa using unmapped
    rw [zeroedEntry, if_neg stays]
    exact zeroForm_data standard

theorem zeroedPart_data (offset bytes g : Nat) (e : L2Entry) :
    cfg.dataClusters (zeroedPart cfg offset bytes g e) ⊆ cfg.dataClusters e := by
  rw [zeroedPart]
  split
  · rw [Format.dataClusters, Format.dataClusters]
    cases cfg.getClusterType e.entry with
    | normal =>
      dsimp only
      split
      · exact nil_subset _
      next still =>
        rw [if_neg fun before => still ⟨before.1, zeroedBitmap_and_allAlloc _ _ before.2⟩]
        exact List.Subset.refl _
    | _ => exact List.Subset.refl _
  · exact List.Subset.refl _

theorem onRange_data
    (shrinks : ∀ e, f e = e ∨ cfg.dataClusters (f e) = []) (g : Nat) (e : L2Entry) :
    cfg.dataClusters (onRange a n f g e) ⊆ cfg.dataClusters e := by
  rw [onRange]
  split
  · rcases shrinks e with same | none
    · rw [same]
      exact List.Subset.refl _
    · rw [none]
      exact nil_subset _
  · exact List.Subset.refl _

theorem or_oflagZero_of_set (set : word &&& oflagZero ≠ 0) : word ||| oflagZero = word := by
  have mask : oflagZero = oflagSubAlloc 0 := by decide
  rw [mask] at set ⊢
  have bit := (and_oflagSubAlloc_ne_zero (by decide) word).mp set
  apply BitVec.eq_of_getLsbD_eq
  intro i _
  rw [BitVec.getLsbD_or, getLsbD_oflagSubAlloc (by decide)]
  by_cases first : i = 0
  · simp [first, bit]
  · simp [first]

/-- A kept entry that is changed was not zero before. -/
theorem discardable_of_passesOn (passes : PassesOn cfg dtype e)
    (changed : e ≠ zeroForm cfg e.entry e.bitmap) : Discardable cfg e := by
  rw [zeroForm] at changed
  rcases passes.2 with normal | zero
  · refine ⟨normal, fun sub same => changed ?_⟩
    rw [if_pos sub, ← same]
  exfalso
  have flag : e.entry &&& oflagZero ≠ 0 ∧ (!cfg.hasSubclusters) = true := by
    rw [Format.getClusterType] at zero
    by_contra clear
    split at zero
    · cases zero
    · split at zero <;> cases zero
  apply changed
  rw [if_neg (by simpa using flag.2), or_oflagZero_of_set flag.1]

theorem DiscardKeeps.discardable (keeps : DiscardKeeps cfg type fullDiscard e) :
    cfg.discardNoUnref = true ∧ cfg.discardPassthrough .request = true ∧ Discardable cfg e := by
  obtain ⟨changed, keep, passes⟩ := keeps
  obtain ⟨standard, rfl, noUnref, rfl⟩ := discardKeepsReference_iff.mp keep
  have allocated : (cfg.getClusterType e.entry).isAllocated = true := by
    rcases passes.2 with kind | kind <;> rw [kind] <;> rfl
  rw [discardedEntry, if_neg Bool.false_ne_true, keep, if_pos (cfg.noUnrefVersion noUnref),
    if_pos (by simp [allocated])] at changed
  exact ⟨noUnref, passes.1, discardable_of_passesOn passes changed⟩

theorem ZeroKeeps.discardable (keeps : ZeroKeeps cfg mayUnmap e) :
    cfg.discardNoUnref = true ∧ cfg.discardPassthrough .request = true ∧ Discardable cfg e := by
  obtain ⟨changed, unmap, keep, passes⟩ := keeps
  have noUnref : cfg.discardNoUnref = true := (Bool.and_eq_true_iff.mp keep).1
  have stays : ¬ (zeroUnmaps cfg mayUnmap e && !zeroKeepsReference cfg e) = true := by simp [keep]
  rw [zeroedEntry, if_neg stays] at changed
  exact ⟨noUnref, passes.1, discardable_of_passesOn passes changed⟩

/-- What every request does: entries only lose data, and a cluster is discarded with its reference
only where the options say so, and then the entry reads as zeroes. -/
structure Effect (cfg : Config) (update : Nat → L2Entry → L2Entry) (kept : Nat → Prop)
    (s : Metadata) : Prop where
  loses : ∀ g e, cfg.dataClusters (update g e) ⊆ cfg.dataClusters e
  keeps : ∀ c, kept c → cfg.discardNoUnref = true ∧ cfg.discardPassthrough .request = true ∧
    ∃ g, Discardable cfg (s.entries cfg 0 g) ∧ offsetField (s.entries cfg 0 g).entry /
      cfg.clusterSize = c ∧ cfg.dataClusters (update g (s.entries cfg 0 g)) = []

theorem clusterDiscard_effect (type : DiscardType) (fullDiscard : Bool) (a n : Nat) (s : Metadata) :
    Effect cfg (onRange a n (discardedEntry cfg type fullDiscard))
      (keptOn cfg (DiscardKeeps cfg type fullDiscard) a n s) s := by
  refine ⟨onRange_data (discardedEntry_data type fullDiscard), ?_⟩
  rintro c ⟨g, low, high, keeps, here⟩
  obtain ⟨noUnref, passes, discardable⟩ := keeps.discardable
  refine ⟨noUnref, passes, g, discardable, here, ?_⟩
  rw [onRange, if_pos ⟨low, high⟩]
  exact (discardedEntry_data type fullDiscard _).resolve_left (Ne.symm keeps.1)

theorem zeroize_effect (mayUnmap : Bool) (offset head a n stop tail : Nat) (s : Metadata) :
    Effect cfg (zeroedRange cfg mayUnmap offset head a n stop tail)
    (keptOn cfg (ZeroKeeps cfg mayUnmap) a n s) s := by
  refine ⟨fun g e => ?_, ?_⟩
  · have bodyLoses : cfg.dataClusters
        (onRange a n (zeroedEntry cfg mayUnmap) g (zeroedPart cfg offset head g e)) ⊆
        cfg.dataClusters (zeroedPart cfg offset head g e) :=
      onRange_data (fun e => .inr (zeroedEntry_data mayUnmap e)) g _
    exact List.Subset.trans (zeroedPart_data stop tail g _)
      (List.Subset.trans bodyLoses (zeroedPart_data offset head g e))
  · rintro c ⟨g, low, high, keeps, here⟩
    obtain ⟨noUnref, passes, discardable⟩ := keeps.discardable
    refine ⟨noUnref, passes, g, discardable, here, ?_⟩
    have none : cfg.dataClusters (onRange a n (zeroedEntry cfg mayUnmap) g
        (zeroedPart cfg offset head g (s.entries cfg 0 g))) = [] := by
      rw [onRange, if_pos ⟨low, high⟩]
      exact zeroedEntry_data mayUnmap _
    exact subset_nil.mp (none ▸ zeroedPart_data stop tail g _)

theorem finish_discards (ret : Int) (s : Metadata) :
    (∀ byte, Covered (finish ret s).1.pdiscards byte → s.Discarding byte) ∧
      (0 ≤ ret → ∀ byte, s.Discarding byte → Covered (finish ret s).1.pdiscards byte) := by
  rw [finish, processDiscards, processQueue_eq]
  constructor
  · intro byte covered
    refine ((covered_append byte).mp covered).symm.imp_left fun issued => ?_
    split at issued
    · exact issued
    · simp at issued
  · intro success byte discarding
    rw [if_pos success]
    exact (covered_append byte).mpr discarding.symm

/-- A request ends with the tables as its parts left them. -/
theorem Request.run_effect {request : Request} (consistent : s.Consistent cfg [])
    (done : request.run cfg alloc s = .ok (s₂, ret)) :
    ∃ s₁ update kept, Effect cfg update kept s ∧ Rewrites cfg [] update kept s s₁ ∧
      s₂.entries cfg = s₁.entries cfg ∧ ∀ byte, Covered s₂.pdiscards byte → s₁.Discarding byte := by
  have discard : ∀ {offset bytes : Nat} {type : DiscardType} {fullDiscard : Bool},
      clusterDiscard cfg alloc offset bytes type fullDiscard s = .ok (s₂, ret) →
      ∃ s₁ update kept, Effect cfg update kept s ∧ Rewrites cfg [] update kept s s₁ ∧
        s₂.entries cfg = s₁.entries cfg ∧ ∀ byte, Covered s₂.pdiscards byte → s₁.Discarding byte := by
    intro offset bytes type fullDiscard done
    obtain ⟨s₁, n, rfl, -, rewrites⟩ := clusterDiscard_rewrites consistent done
    exact ⟨s₁, _, _, clusterDiscard_effect _ _ _ _ _, rewrites, rfl, (finish_discards ret s₁).1⟩
  cases request with
  | discard offset bytes type fullDiscard => exact discard done
  | zeroize offset bytes mayUnmap => ?_
  have done : subclusterZeroize cfg alloc offset bytes mayUnmap s = .ok (s₂, ret) := done
  by_cases version : 3 ≤ cfg.version
  · obtain ⟨s₁, head, n, tail, rfl, -, rewrites⟩ := subclusterZeroize_rewrites version consistent done
    exact ⟨s₁, _, _, zeroize_effect _ _ _ _ _ _ _ _, rewrites, rfl, (finish_discards ret s₁).1⟩
  rw [subclusterZeroize] at done
  split at done
  · cases done
  split at done
  · cases done
  rw [if_pos (by omega)] at done
  split at done
  · cases Except.ok.inj done
    exact ⟨s, sameEntries, noneKept, ⟨fun _ _ => List.Subset.refl _, fun _ => False.elim⟩,
      Rewrites.refl consistent, rfl, fun _ covered => .inr covered⟩
  · exact discard done

end Metadata

end Qemu.Qcow2
