import Qemu.Util.HBitmapMerge

/-! Runs of bitmap operations refine a flat model: a set of dirty groups without
levels, words or counts. -/

namespace Qemu.HBitmap

open BitWords

/-- A call on the bitmaps allocated so far, which are named by their index. -/
inductive Op where
  | alloc (size granularity : Nat)
  | set (target : Nat) (start count : BitVec 64)
  | reset (target : Nat) (start count : BitVec 64)
  | resetAll (target : Nat)
  | truncate (target size : Nat)
  | merge (a b result : Nat)

/-- Apply an operation to one bitmap. -/
def modify (store : List HBitmap) (target : Nat) (f : HBitmap → Option HBitmap) :
    Option (List HBitmap) := do
  let hb ← store[target]?
  let new ← f hb
  some (store.set target new)

/-- One call; the result of a merge has the granularity of `a`, as its callers
see to. -/
def step (store : List HBitmap) : Op → Option (List HBitmap)
  | .alloc size granularity => (alloc size granularity).map fun hb => store ++ [hb]
  | .set target start count => modify store target (·.set start count)
  | .reset target start count => modify store target (·.reset start count)
  | .resetAll target => modify store target (some ·.resetAll)
  | .truncate target size => modify store target (·.truncate size)
  | .merge a b result => do
    let first ← store[a]?
    let second ← store[b]?
    modify store result fun old =>
      if old.granularity = first.granularity then
        merge first second old (a == result) (b == result)
      else none

def run (store : List HBitmap) (ops : List Op) : Option (List HBitmap) := ops.foldlM step store

end HBitmap

/-- A bitmap without its representation: the dirty groups of `2 ^ granularity` items. -/
structure Flat where
  origSize : Nat
  granularity : Nat
  dirty : Set Nat

namespace Flat

open HBitmap (Op groups)

def DirtyItem (flat : Flat) (item : Nat) : Prop := item / 2 ^ flat.granularity ∈ flat.dirty

/-- The groups of the items from `start`, `count` of them. -/
def touched (flat : Flat) (start count : BitVec 64) : Set Nat :=
  if count = 0 then ∅
  else Set.Icc (start.toNat / 2 ^ flat.granularity)
    ((start + count - 1).toNat / 2 ^ flat.granularity)

/-- The merge keeps the groups of `a` and adds every group of the result with a
dirty item of `b`. -/
def merge (a b result : Flat) : Flat :=
  { result with dirty := a.dirty ∪ {group | ∃ item < result.origSize, b.DirtyItem item ∧
      item / 2 ^ result.granularity = group} }

def step (store : List Flat) : Op → List Flat
  | .alloc size granularity => store ++ [⟨size, granularity, ∅⟩]
  | .set target start count =>
    store.modify target fun flat => { flat with dirty := flat.dirty ∪ flat.touched start count }
  | .reset target start count =>
    store.modify target fun flat => { flat with dirty := flat.dirty \ flat.touched start count }
  | .resetAll target => store.modify target fun flat => { flat with dirty := ∅ }
  | .truncate target size =>
    store.modify target fun flat => { flat with
      origSize := size
      dirty := {group ∈ flat.dirty | group < groups size flat.granularity} }
  | .merge a b result =>
    match store[a]?, store[b]? with
    | some first, some second => store.modify result (merge first second)
    | _, _ => store

def run (ops : List Op) : List Flat := ops.foldl step []

end Flat

namespace HBitmap

open BitWords Option

/-- The bitmap holds the dirty groups of the flat model. -/
structure Models (hb : HBitmap) (flat : Flat) : Prop where
  wellFormed : WellFormed hb
  origSize_eq : hb.origSize = flat.origSize
  granularity_eq : hb.granularity = flat.granularity
  bits_eq : bits (hb.levels 6) = flat.dirty

/-- The bitmap satisfies its invariant and `get` reads the flat model. -/
structure Refines (hb : HBitmap) (flat : Flat) : Prop where
  wellFormed : WellFormed hb
  origSize_eq : hb.origSize = flat.origSize
  granularity_eq : hb.granularity = flat.granularity
  get_eq : ∀ item, item / 2 ^ hb.granularity < hb.size →
    ∃ value, hb.get item = some value ∧ (value = true ↔ flat.DirtyItem item)

variable {flat : Flat}

theorem Models.refines (models : Models hb flat) : Refines hb flat where
  wellFormed := models.wellFormed
  origSize_eq := models.origSize_eq
  granularity_eq := models.granularity_eq
  get_eq item inside := by
    refine ⟨_, by rw [get, if_pos inside], ?_⟩
    rw [Flat.DirtyItem, ← models.bits_eq, ← models.granularity_eq]
    rfl

theorem Leaves.models (models : Models hb flat)
    (leaves : Leaves hb dirty new) : Models new { flat with dirty } where
  wellFormed := leaves.wellFormed
  origSize_eq := leaves.origSize_eq.trans models.origSize_eq
  granularity_eq := leaves.granularity_eq.trans models.granularity_eq
  bits_eq := leaves.bits_eq

section Store

variable {α β : Type}

variable {target : Nat}

theorem forall₂_getElem? (related : List.Forall₂ R store flats)
    (found : store[target]? = some value) : ∃ flat, flats[target]? = some flat ∧ R value flat := by
  induction related generalizing target with
  | nil => simp at found
  | cons here rest ih => ?_
  cases target with
  | zero =>
    rw [List.getElem?_cons_zero, some_inj] at found
    subst found
    exact ⟨_, List.getElem?_cons_zero, here⟩
  | succ target =>
    exact ih found

theorem forall₂_set_modify (related : List.Forall₂ R store flats)
    (fits : ∀ flat, flats[target]? = some flat → R value (f flat)) :
    List.Forall₂ R (store.set target value) (flats.modify target f) := by
  induction related generalizing target with
  | nil => simp
  | cons here rest ih => ?_
  cases target with
  | zero => exact .cons (fits _ List.getElem?_cons_zero) rest
  | succ target =>
    refine .cons here (ih fun flat found => fits flat ?_)
    exact found

end Store

section Simulation

variable {store later : List HBitmap}

/-- An operation on one bitmap that the flat operation follows. -/
theorem modify_models (models : List.Forall₂ Models store flats)
    (moved : modify store target f = some later)
    (follows : ∀ hb flat new, store[target]? = some hb → flats[target]? = some flat →
      Models hb flat → f hb = some new → Models new (g flat)) :
    List.Forall₂ Models later (flats.modify target g) := by
  obtain ⟨hb, found, moved⟩ := bind_eq_some_iff.mp moved
  obtain ⟨new, changed, moved⟩ := bind_eq_some_iff.mp moved
  rw [some_inj] at moved
  subst moved
  refine forall₂_set_modify models fun flat here => ?_
  obtain ⟨flat', found', related⟩ := forall₂_getElem? models found
  rw [here, some_inj] at found'
  subst found'
  exact follows hb flat new found here related changed

variable {hb : HBitmap} {flat : Flat}

theorem touched_eq (models : Models hb flat) {start count : BitVec 64}
    (nonempty : count ≠ 0) : flat.touched start count = hb.range start count := by
  rw [Flat.touched, if_neg nonempty, range, firstGroup, lastGroup, BitVec.toNat_ushiftRight,
    BitVec.toNat_ushiftRight, Nat.shiftRight_eq_div_pow, Nat.shiftRight_eq_div_pow,
    models.granularity_eq]

section Calls

variable {hb new : HBitmap} {flat : Flat} (models : Models hb flat) {start count : BitVec 64}
include models

theorem set_models (ran : hb.set start count = some new) :
    Models new { flat with dirty := flat.dirty ∪ flat.touched start count } := by
  rcases (set_isSome_iff models.wellFormed).mp (by rw [ran]; rfl) with rfl | covers
  · rw [set, if_pos rfl, some_inj] at ran
    subst ran
    rwa [Flat.touched, if_pos rfl, Set.union_empty]
  obtain ⟨new', ran', leaves⟩ := set_spec models.wellFormed covers
  rw [ran, some_inj] at ran'
  subst ran'
  rw [touched_eq models covers.nonempty, ← models.bits_eq]
  exact leaves.models models

theorem reset_models (ran : hb.reset start count = some new) :
    Models new { flat with dirty := flat.dirty \ flat.touched start count } := by
  rcases (reset_isSome_iff models.wellFormed).mp (by rw [ran]; rfl) with rfl | ⟨covers, aligned⟩
  · rw [reset, if_pos rfl, some_inj] at ran
    subst ran
    rwa [Flat.touched, if_pos rfl, Set.sdiff_empty]
  obtain ⟨new', ran', leaves⟩ := reset_spec models.wellFormed covers aligned
  rw [ran, some_inj] at ran'
  subst ran'
  rw [touched_eq models covers.nonempty, ← models.bits_eq]
  exact leaves.models models

theorem truncate_models {size : Nat} (ran : hb.truncate size = some new) :
    Models new { flat with
      origSize := size
      dirty := {group ∈ flat.dirty | group < groups size flat.granularity} } := by
  have accepted := (truncate_isSome_iff models.wellFormed).mp (by rw [ran]; rfl)
  obtain ⟨new', ran', formed, origSize_eq, granularity_eq, bits_eq⟩ :=
    truncate_spec models.wellFormed accepted.1 accepted.2
  rw [ran, some_inj] at ran'
  subst ran'
  refine ⟨formed, origSize_eq, granularity_eq.trans models.granularity_eq, ?_⟩
  rw [bits_eq, models.bits_eq, models.granularity_eq]

end Calls

theorem eq_of_handle {handle result : Nat} (found : store[handle]? = some named)
    (foundResult : store[result]? = some hb) (same : (handle == result) = true) : named = hb := by
  rw [beq_iff_eq] at same
  subst same
  rw [found, some_inj] at foundResult
  exact foundResult

theorem merge_models (mergeable : Mergeable first second hb resultIsA resultIsB)
    (relatedA : Models first flatA) (relatedB : Models second flatB) (related : Models hb flat)
    (ran : merge first second hb resultIsA resultIsB = some new) :
    Models new (Flat.merge flatA flatB flat) := by
  obtain ⟨new', ran', leaves⟩ := merge_spec mergeable
  rw [ran, some_inj] at ran'
  subst ran'
  have groups_eq : second.groupsOf (2 ^ hb.granularity) hb.origSize =
      {group | ∃ item < flat.origSize, flatB.DirtyItem item ∧ item / 2 ^ flat.granularity = group} := by
    simp [groupsOf, DirtyItem, Flat.DirtyItem, related.origSize_eq, related.granularity_eq,
      relatedB.bits_eq, relatedB.granularity_eq]
  rw [groups_eq, relatedA.bits_eq] at leaves
  exact leaves.models related

theorem step_models (models : List.Forall₂ Models store flats)
    (moved : step store op = some later) : List.Forall₂ Models later (Flat.step flats op) := by
  cases op with
  | alloc size granularity =>
    obtain ⟨hb, made, rfl⟩ := map_eq_some_iff.mp moved
    obtain ⟨small, scaled, bounded⟩ := alloc_isSome_iff.mp (by rw [made]; rfl)
    obtain ⟨hb', made', formed, origSize_eq, granularity_eq, empty⟩ := alloc_spec small scaled bounded
    rw [made, some_inj] at made'
    subst made'
    exact List.rel_append models (.cons ⟨formed, origSize_eq, granularity_eq, empty⟩ .nil)
  | set target start count =>
    exact modify_models models moved fun _ _ _ _ _ related ran => set_models related ran
  | reset target start count =>
    exact modify_models models moved fun _ _ _ _ _ related ran => reset_models related ran
  | resetAll target =>
    refine modify_models models moved fun hb flat new _ _ related ran => ?_
    rw [some_inj] at ran
    subst ran
    exact (resetAll_spec related.wellFormed).models related
  | truncate target size =>
    exact modify_models models moved fun _ _ _ _ _ related ran => truncate_models related ran
  | merge a b result =>
    obtain ⟨first, foundA, moved⟩ := bind_eq_some_iff.mp moved
    obtain ⟨second, foundB, moved⟩ := bind_eq_some_iff.mp moved
    obtain ⟨flatA, foundFlatA, relatedA⟩ := forall₂_getElem? models foundA
    obtain ⟨flatB, foundFlatB, relatedB⟩ := forall₂_getElem? models foundB
    simp only [Flat.step, foundFlatA, foundFlatB]
    refine modify_models models moved fun hb flat new found _ related ran => ?_
    obtain ⟨granularity, ran⟩ := ite_none_right_eq_some.mp ran
    obtain ⟨aSize, bSize⟩ := merge_isSome (by rw [ran]; rfl)
    exact merge_models ⟨relatedA.wellFormed, relatedB.wellFormed, related.wellFormed, aSize, bSize,
      granularity, eq_of_handle foundA found, eq_of_handle foundB found⟩ relatedA relatedB related ran

theorem run_models (models : List.Forall₂ Models store flats)
    (ran : run store ops = some later) : List.Forall₂ Models later (ops.foldl Flat.step flats) := by
  induction ops generalizing store flats with
  | nil =>
    obtain rfl : store = later := some_inj.mp ran
    exact models
  | cons op ops ih =>
    obtain ⟨next, moved, rest⟩ := bind_eq_some_iff.mp ran
    exact ih (step_models models moved) rest

end Simulation

/-- What the assertions of a call ask of its arguments. -/
def Accepted (store : List HBitmap) : Op → Prop
  | .alloc size granularity =>
    size < 2 ^ 63 ∧ granularity < 64 ∧ groups size granularity ≤ 2 ^ 41
  | .set target start count =>
    ∃ hb, store[target]? = some hb ∧ (count = 0 ∨ Covers hb start count)
  | .reset target start count =>
    ∃ hb, store[target]? = some hb ∧ (count = 0 ∨ Covers hb start count ∧ Aligned hb start count)
  | .resetAll target => ∃ hb, store[target]? = some hb
  | .truncate target size =>
    ∃ hb, store[target]? = some hb ∧ size < 2 ^ 63 ∧ groups size hb.granularity ≤ 2 ^ 41
  | .merge a b result =>
    ∃ first second old, store[a]? = some first ∧ store[b]? = some second ∧
      store[result]? = some old ∧ old.granularity = first.granularity ∧
      first.origSize = old.origSize ∧ second.origSize = old.origSize

variable {store : List HBitmap}

theorem modify_isSome_iff :
    (modify store target f).isSome = true ↔ ∃ hb, store[target]? = some hb ∧ (f hb).isSome = true := by
  unfold modify
  cases store[target]? with
  | none => simp
  | some hb =>
    cases changed : f hb with
    | none => simp [changed]
    | some new => simp [changed]

/-- A call on well-formed bitmaps goes through exactly when its arguments pass
its assertions. -/
theorem step_isSome_iff (formed : ∀ hb ∈ store, WellFormed hb) :
    (step store op).isSome = true ↔ Accepted store op := by
  have at' {target : Nat} {hb : HBitmap} (found : store[target]? = some hb) : WellFormed hb :=
    formed hb (List.mem_of_getElem? found)
  cases op with
  | alloc size granularity =>
    rw [step, isSome_map]
    exact alloc_isSome_iff
  | set target start count =>
    rw [step, modify_isSome_iff]
    exact exists_congr fun hb => and_congr_right fun found => set_isSome_iff (at' found)
  | reset target start count =>
    rw [step, modify_isSome_iff]
    exact exists_congr fun hb => and_congr_right fun found => reset_isSome_iff (at' found)
  | resetAll target =>
    rw [step, modify_isSome_iff]
    exact exists_congr fun hb => and_iff_left rfl
  | truncate target size =>
    rw [step, modify_isSome_iff]
    exact exists_congr fun hb => and_congr_right fun found => truncate_isSome_iff (at' found)
  | merge a b result =>
    constructor
    · intro ran
      obtain ⟨later, moved⟩ := isSome_iff_exists.mp ran
      obtain ⟨first, foundA, moved⟩ := bind_eq_some_iff.mp moved
      obtain ⟨second, foundB, moved⟩ := bind_eq_some_iff.mp moved
      obtain ⟨old, found, ran⟩ := modify_isSome_iff.mp (by rw [moved]; rfl)
      obtain ⟨new, ran⟩ := isSome_iff_exists.mp ran
      obtain ⟨granularity, ran⟩ := ite_none_right_eq_some.mp ran
      exact ⟨first, second, old, foundA, foundB, found, granularity, merge_isSome (by rw [ran]; rfl)⟩
    · rintro ⟨first, second, old, foundA, foundB, found, granularity, aSize, bSize⟩
      obtain ⟨new, ran, -⟩ := merge_spec ⟨at' foundA, at' foundB, at' found, aSize, bSize,
        granularity, eq_of_handle foundA found, eq_of_handle foundB found⟩
      simp only [step, foundA, foundB]
      refine modify_isSome_iff.mpr ⟨old, found, ?_⟩
      rw [if_pos granularity, ran]
      rfl

/-- Calls that make one bitmap with three dirty runs: inside of a word, over the end of the first
word, and at the end. -/
def stripes : List Op := [.alloc 2000 3, .set 0 40 100, .set 0 500 60, .set 0 1990 10]

theorem stripes_run : ∃ hb, WellFormed hb ∧ run [] stripes = some [hb] ∧
    ∀ {α : Type} (f : HBitmap → Option α),
    ((run [] stripes).bind fun store => store.head?.bind f) = f hb := by
  obtain ⟨store, ran⟩ := isSome_iff_exists.mp (show (run [] stripes).isSome = true by decide +kernel)
  have models := run_models .nil ran
  have one : store.length = 1 := models.length_eq
  obtain ⟨hb, rfl⟩ := List.length_eq_one_iff.mp one
  obtain ⟨flat, -, related⟩ := forall₂_getElem? models (show [hb][0]? = some hb from rfl)
  exact ⟨hb, related.wellFormed, ran, fun f => by rw [ran]; rfl⟩

/-- In every state that a run of calls reaches, each bitmap satisfies the
representation invariant and `get` reads the flat model; the next call goes
through exactly when its arguments pass its assertions. -/
theorem run_refines (ops : List Op) (store : List HBitmap) (ran : run [] ops = some store) :
    List.Forall₂ Refines store (Flat.run ops) ∧ ∀ op, (step store op).isSome = true ↔
    Accepted store op := by
  have models := run_models .nil ran
  refine ⟨models.imp fun _ _ => Models.refines, fun op => step_isSome_iff fun hb mem => ?_⟩
  obtain ⟨target, found⟩ := List.mem_iff_getElem?.mp mem
  obtain ⟨flat, -, related⟩ := forall₂_getElem? models found
  exact related.wellFormed

/-- Setting across words, merging a finer bitmap in, and cutting the result. -/
theorem run_refines_at_merge : ∃ store,
    run [] [.alloc 300 1, .alloc 300 0, .set 1 3 200, .merge 0 1 0, .reset 0 128 64,
    .truncate 0 150] = some store ∧
    List.Forall₂ Refines store (Flat.run [.alloc 300 1, .alloc 300 0, .set 1 3 200, .merge 0 1 0,
      .reset 0 128 64, .truncate 0 150]) := by
  have reached : (run [] [.alloc 300 1, .alloc 300 0, .set 1 3 200, .merge 0 1 0, .reset 0 128 64,
      .truncate 0 150]).isSome = true := by decide +kernel
  obtain ⟨store, ran⟩ := isSome_iff_exists.mp reached
  exact ⟨store, ran, (run_refines _ store ran).1⟩

/-- A merge is not the pointwise or of its items: item 1 is clear in a bitmap of
granularity 1 and in one of granularity 0 whose item 0 is dirty, and dirty in
their merge. -/
theorem merge_not_pointwise :
    (run [] [.alloc 2 1, .alloc 2 0, .set 1 0 1]).map (fun store => store.map (·.get 1)) =
      some [some false, some false] ∧
    (run [] [.alloc 2 1, .alloc 2 0, .set 1 0 1, .merge 0 1 0]).map
      (fun store => store.map (·.get 1)) = some [some true, some false] := by
  decide +kernel

end HBitmap

end Qemu
