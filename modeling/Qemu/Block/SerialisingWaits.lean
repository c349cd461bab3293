import Mathlib.Data.List.Perm.Basic
import Qemu.Lib.WaitGraph
import Qemu.Block.Serialising

/-! What holds between two requests at every switch: of those that do not wait, no two conflict, and
nobody waits in a circle. -/

namespace Qemu.Block.Serialising

open WaitGraph List Option

/-- A tracked request waits for another. -/
def Waits (s : State) (i j : Nat) : Prop := i ∈ s.tracked ∧ (s.req i).waitingFor = some j

/-- What holds at a switch, and for all others while the request `busy` runs. -/
structure Inv (s : State) (busy : Option Nat) : Prop where
  nodup : s.tracked.Nodup
  counter : s.serialisingInFlight = s.tracked.countP fun j => (s.req j).serialising
  running : ∀ i, busy = some i → i ∈ s.tracked ∧ (s.req i).waitingFor = none ∧ (s.req i).transfer = none
  yielded : ∀ i ∈ s.tracked, busy ≠ some i → ((s.req i).waitingFor = none ↔ (s.req i).transfer ≠ none)
  quiet : ∀ i ∈ s.tracked, ∀ j ∈ s.tracked, i ≠ j → busy ≠ some i → busy ≠ some j →
    (s.req i).waitingFor = none →
    (s.req j).waitingFor = none → conflicts (s.req i) (s.req j) = false
  acyclic : Acyclic (Waits s)
  alive : ∀ i ∈ s.tracked, ∀ j, (s.req i).waitingFor = some j → (s.req i).woken = false → j ∈ s.tracked

theorem conflicts_comm (a b : Tracked) : conflicts a b = conflicts b a := by
  rw [Bool.eq_iff_iff]
  simp only [conflicts, trackedRequestOverlaps, Bool.and_eq_true, Bool.or_eq_true]
  constructor
  · exact fun ⟨serialising, below, above⟩ => ⟨serialising.symm, above, below⟩
  · exact fun ⟨serialising, below, above⟩ => ⟨serialising.symm, above, below⟩

variable {s : State} {id : Nat}

theorem find_none_iff : bdrvFindConflictingRequest s id = none ↔
    ∀ j ∈ s.tracked, j ≠ id → (s.req j).waitingFor = none → conflicts (s.req id) (s.req j) = false := by
  simp only [bdrvFindConflictingRequest, find?_eq_none, Bool.and_eq_true, decide_eq_true_eq, not_and,
    isNone_iff_eq_none]
  constructor
  · exact fun none j member other free => Bool.eq_false_iff.mpr fun conflict =>
      none j member ⟨other, conflict⟩ free
  · exact fun clear j member ⟨other, conflict⟩ free => by
      rw [clear j member other free] at conflict
      exact Bool.false_ne_true conflict

theorem find_some (found : bdrvFindConflictingRequest s id = some other) :
    other ∈ s.tracked ∧ other ≠ id ∧ (s.req other).waitingFor = none := by
  have member := mem_of_find?_eq_some found
  have satisfied := find?_some found
  simp only [Bool.and_eq_true, decide_eq_true_eq, isNone_iff_eq_none] at satisfied
  exact ⟨member, satisfied.1.1, satisfied.2⟩

section

variable {s : State} {id : Nat}

@[simp]
theorem set_self (req : Tracked) : (s.set id req).req id = req := Function.update_self ..

theorem set_other (other : j ≠ id) (req : Tracked) : (s.set id req).req j = s.req j :=
  Function.update_of_ne other ..

/-- What a change of one request does to the number of serialising requests. -/
theorem countP_set {l : List Nat} (nodup : l.Nodup) (member : id ∈ l) (req : Tracked) :
    (l.countP fun j => ((s.set id req).req j).serialising) + (if (s.req id).serialising then 1 else 0) =
      (l.countP fun j => (s.req j).serialising) + if req.serialising then 1 else 0 := by
  induction l with
  | nil => simp at member
  | cons j l ih => ?_
  obtain ⟨fresh, nodup⟩ := nodup_cons.mp nodup
  rw [countP_cons, countP_cons]
  rcases mem_cons.mp member with rfl | member
  · have same : (l.countP fun j => ((s.set id req).req j).serialising) = l.countP fun j =>
      (s.req j).serialising := by
      refine countP_congr fun j here => ?_
      have other : j ≠ id := fun same => fresh (same ▸ here)
      rw [set_other other]
    rw [set_self]
    omega
  · have other : j ≠ id := fun same => fresh (same ▸ member)
    have rest := ih nodup member
    rw [set_other other]
    omega

theorem countP_set_same {l : List Nat} (nodup : l.Nodup) (member : id ∈ l)
    (same : req.serialising = (s.req id).serialising) :
    (l.countP fun j => ((s.set id req).req j).serialising) = l.countP fun j => (s.req j).serialising := by
  have count := @countP_set s id l nodup member req
  rw [same] at count
  omega

theorem req_of_waits (free : req.waitingFor = none)
    (waits : ((s.set id req).req i).waitingFor = some j) : (s.set id req).req i = s.req i := by
  refine set_other (fun same => ?_) _
  rw [same, set_self, free] at waits
  exact absurd waits (by simp)

/-- The request that runs changes itself, or one is taken up at a switch. -/
theorem Inv.runs (inv : Inv s busy) (only : ∀ j, some id ≠ some j → busy ≠ some j)
    (here : id ∈ s.tracked) {count : Nat}
    (free : req.waitingFor = none) (idle : req.transfer = none)
    (counts : count = s.tracked.countP fun j => ((s.set id req).req j).serialising) :
    Inv { s.set id req with serialisingInFlight := count } (some id) := by
  have others : ∀ j, some id ≠ some j → (s.set id req).req j = s.req j := fun j other =>
    set_other (fun same => other (congrArg some same.symm)) _
  refine ⟨inv.nodup, counts, ?_, ?_, ?_, ?_, ?_⟩
  · rintro i ⟨⟩
    exact ⟨here, by simpa using free, by simpa using idle⟩
  · intro i member other
    rw [others i other]
    exact inv.yielded i member (only i other)
  · intro i memberI j memberJ differ otherI otherJ
    rw [others i otherI, others j otherJ]
    exact inv.quiet i memberI j memberJ differ (only i otherI) (only j otherJ)
  · exact inv.acyclic.mono fun x y waits => ⟨waits.1, req_of_waits free waits.2 ▸ waits.2⟩
  · intro i member j waits sleeping
    have unchanged := req_of_waits free waits
    exact inv.alive i member j (unchanged ▸ waits) (unchanged ▸ sleeping)

theorem Inv.take (inv : Inv s none) (here : id ∈ s.tracked) (free : req.waitingFor = none)
    (idle : req.transfer = none) (same : req.serialising = (s.req id).serialising) :
    Inv (s.set id req) (some id) :=
  inv.runs (by simp) here free idle (inv.counter.trans (countP_set_same inv.nodup here same).symm)

section

variable (inv : Inv s (some id))
include inv

theorem Inv.beginStep (step : Step) : Inv (beginStep s id step) (some id) := by
  rw [Serialising.beginStep]
  split
  · exact inv
  next unit _ =>
    obtain ⟨here, free, idle⟩ := inv.running id rfl
    have count := @countP_set s id s.tracked inv.nodup here (setSerialising (s.req id) unit)
    refine inv.runs (fun _ other => other) here free idle ?_
    have now : (setSerialising (s.req id) unit).serialising = true := rfl
    rw [← inv.counter] at count
    split at count
    next already =>
      rw [if_pos already]
      omega
    next notYet =>
      rw [if_neg notYet]
      omega

/-- The quick check finds no conflict only if there is none. -/
theorem Inv.findConflict_eq (step : Step) :
    findConflict s id step = bdrvFindConflictingRequest s id := by
  rw [findConflict]
  split
  next quick =>
    have none : ∀ j ∈ s.tracked, (s.req j).serialising = false := by
      have zero := inv.counter.symm.trans quick.2
      rw [countP_eq_zero] at zero
      exact fun j member => Bool.eq_false_iff.mpr (zero j member)
    refine (find_none_iff.mpr fun j member _ _ => ?_).symm
    rw [conflicts, none j member, none id (inv.running id rfl).1]
    rfl
  · rfl

/-- The request gets to a switch: it waits for one that does not, or has something for the driver
and conflicts with no one. -/
theorem Inv.settles (same : req.serialising = (s.req id).serialising)
    (yields : req.waitingFor = none ↔ req.transfer ≠ none)
    (clear : req.waitingFor = none → ∀ j ∈ s.tracked, j ≠ id → (s.req j).waitingFor = none →
      conflicts req (s.req j) = false)
    (target : ∀ other, req.waitingFor = some other →
      other ∈ s.tracked ∧ other ≠ id ∧ (s.req other).waitingFor = none) : Inv (s.set id req) none := by
  obtain ⟨here, -, -⟩ := inv.running id rfl
  have others : ∀ {j}, j ≠ id → (s.set id req).req j = s.req j := fun other => set_other other _
  refine ⟨inv.nodup, ?_, by simp, ?_, ?_, ?_, ?_⟩
  · exact inv.counter.trans (countP_set_same inv.nodup here same).symm
  · intro i member _
    by_cases self : i = id
    · rw [self, set_self]
      exact yields
    · rw [others self]
      exact inv.yielded i member (by simpa using Ne.symm self)
  · intro i memberI j memberJ differ _ _ freeI freeJ
    by_cases selfI : i = id
    · rw [selfI] at differ freeI ⊢
      rw [others differ.symm] at freeJ ⊢
      rw [set_self] at freeI ⊢
      exact clear freeI j memberJ differ.symm freeJ
    · rw [others selfI] at freeI ⊢
      by_cases selfJ : j = id
      · rw [selfJ, set_self] at freeJ ⊢
        rw [conflicts_comm]
        exact clear freeJ i memberI selfI freeI
      · rw [others selfJ] at freeJ ⊢
        exact inv.quiet i memberI j memberJ differ (by simpa using Ne.symm selfI)
          (by simpa using Ne.symm selfJ) freeI freeJ
  · cases waiting : req.waitingFor with
    | none => exact inv.acyclic.mono fun x y waits => ⟨waits.1, req_of_waits waiting waits.2 ▸ waits.2⟩
    | some other => ?_
    obtain ⟨-, different, free⟩ := target other waiting
    refine inv.acyclic.add_sink (a := id) (b := other) (fun x y waits => ?_) fun y waits => ?_
    · by_cases self : x = id
      · have edge := waits.2
        rw [self, set_self, waiting] at edge
        exact Or.inr ⟨self, (some.inj edge).symm⟩
      · exact Or.inl ⟨waits.1, (congrArg Tracked.waitingFor (others self)).symm.trans waits.2⟩
    · have edge := waits.2
      rw [others different, free] at edge
      exact absurd edge (by simp)
  · intro i member j waits sleeping
    by_cases self : i = id
    · rw [self, set_self] at waits
      exact (target j waits).1
    · rw [others self] at waits sleeping
      exact inv.alive i member j waits sleeping

end

theorem end_req (j : Nat) : ((trackedRequestEnd s id).req j).waitingFor = (s.req j).waitingFor ∧
    ((trackedRequestEnd s id).req j).transfer = (s.req j).transfer ∧
    ((trackedRequestEnd s id).req j).serialising = (s.req j).serialising ∧
    ∀ other, conflicts other ((trackedRequestEnd s id).req j) = conflicts other (s.req j) := by
  rw [trackedRequestEnd]
  dsimp only
  split
  · exact ⟨rfl, rfl, rfl, fun _ => rfl⟩
  · exact ⟨rfl, rfl, rfl, fun _ => rfl⟩

/-- The request is done, and whoever waits for it can go on. -/
theorem Inv.ends (inv : Inv s (some id)) : Inv (trackedRequestEnd s id) none := by
  obtain ⟨here, -, -⟩ := inv.running id rfl
  have remains : ∀ {i}, i ∈ (trackedRequestEnd s id).tracked → i ∈ s.tracked ∧ some id ≠ some i :=
    fun {i} member =>
    have left := (inv.nodup.mem_erase_iff).mp member
    ⟨left.2, fun same => left.1 (some.inj same).symm⟩
  refine ⟨inv.nodup.erase id, ?_, by simp, ?_, ?_, ?_, ?_⟩
  · have count : s.tracked.countP (fun j => (s.req j).serialising) =
        (s.tracked.erase id).countP (fun j => (s.req j).serialising) +
          if (s.req id).serialising then 1 else 0 :=
      ((perm_cons_erase here).countP_eq _).trans countP_cons
    have same : ((trackedRequestEnd s id).tracked.countP fun j =>
        ((trackedRequestEnd s id).req j).serialising) =
        (s.tracked.erase id).countP fun j => (s.req j).serialising :=
      countP_congr fun j _ => by rw [(end_req j).2.2.1]
    rw [same, trackedRequestEnd, inv.counter, count]
    dsimp only
    split <;> omega
  · intro i member _
    rw [(end_req i).1, (end_req i).2.1]
    exact inv.yielded i (remains member).1 (remains member).2
  · intro i memberI j memberJ differ _ _ freeI freeJ
    rw [(end_req i).1] at freeI
    rw [(end_req j).1] at freeJ
    rw [(end_req j).2.2.2, conflicts_comm, (end_req i).2.2.2, conflicts_comm]
    exact inv.quiet i (remains memberI).1 j (remains memberJ).1 differ (remains memberI).2
      (remains memberJ).2 freeI freeJ
  · exact inv.acyclic.mono fun x y waits => ⟨(remains waits.1).1, (end_req x).1.symm.trans waits.2⟩
  intro i member j waits sleeping
  rw [(end_req i).1] at waits
  rw [trackedRequestEnd] at sleeping
  dsimp only at sleeping
  split at sleeping
  · exact absurd sleeping (by simp)
  next other =>
    have differs : j ≠ id := fun same => other (waits.trans (congrArg some same))
    exact (mem_erase_of_ne differs).mpr (inv.alive i (remains member).1 j waits sleeping)

theorem Inv.begins (inv : Inv s none) (fresh : id ∉ s.tracked) (call : Call) (offset bytes : Nat)
    (steps : List Step) : Inv (trackedRequestBegin s id call offset bytes steps) (some id) := by
  set later := trackedRequestBegin s id call offset bytes steps
  have others : ∀ j ∈ s.tracked, later.req j = s.req j := by
    intro j member
    have other : j ≠ id := fun same => fresh (same ▸ member)
    exact set_other other _
  have self : later.req id = ⟨call, offset, bytes, false, offset, bytes, none, false, none,
    steps⟩ := set_self _
  have old : ∀ {i}, i ∈ later.tracked → some id ≠ some i → i ∈ s.tracked :=
    fun {i} member other => (mem_cons.mp member).resolve_left fun same => other (congrArg some same.symm)
  refine ⟨nodup_cons.mpr ⟨fresh, inv.nodup⟩, ?_, ?_, ?_, ?_, ?_, ?_⟩
  · rw [show later.tracked = id :: s.tracked from rfl, countP_cons, self,
      countP_congr fun j member => by rw [others j member]]
    exact inv.counter
  · rintro i ⟨⟩
    rw [self]
    exact ⟨mem_cons_self .., rfl, rfl⟩
  · intro i member other
    rw [others i (old member other)]
    exact inv.yielded i (old member other) (by simp)
  · intro i memberI j memberJ differ otherI otherJ
    rw [others i (old memberI otherI), others j (old memberJ otherJ)]
    exact inv.quiet i (old memberI otherI) j (old memberJ otherJ) differ (by simp) (by simp)
  · refine inv.acyclic.mono fun x y waits => ?_
    by_cases here : x = id
    · have edge := waits.2
      rw [here, self] at edge
      exact absurd edge (by simp)
    · have member := old waits.1 fun same => here (some.inj same).symm
      exact ⟨member, (congrArg Tracked.waitingFor (others x member)).symm.trans waits.2⟩
  · intro i member j waits sleeping
    by_cases here : i = id
    · rw [here, self] at waits
      exact absurd waits (by simp)
    · have member := old member fun same => here (some.inj same).symm
      rw [others i member] at waits sleeping
      exact mem_cons_of_mem _ (inv.alive i member j waits sleeping)

end

/-- How a request that runs gets to the next switch. -/
inductive Outcome (id : Nat) : State → List Step → State → Prop
  | ends {s : State} (inv : Inv s (some id)) : Outcome id s [] (trackedRequestEnd s id)
  | refused {s : State} {step : Step} {rest : List Step} (inv : Inv (beginStep s id step) (some id)) :
      Outcome id s (step :: rest) (trackedRequestEnd (beginStep s id step) id)
  | waits {s : State} {step : Step} {rest : List Step} {other : Nat}
      (inv : Inv (beginStep s id step) (some id))
      (found : bdrvFindConflictingRequest (beginStep s id step) id = some other) :
      Outcome id s (step :: rest) ((beginStep s id step).set id { (beginStep s id step).req id with
        waitingFor := some other, woken := false, steps :=
          { step with serialise := none, locked := true } :: rest })
  | transfers {s : State} {step : Step} {rest : List Step} {transfer : Transfer}
      (inv : Inv (beginStep s id step) (some id))
      (clear : bdrvFindConflictingRequest (beginStep s id step) id = none)
        (given : step.transfer = some transfer) :
      Outcome id s (step :: rest) ((beginStep s id step).set id { (beginStep s id step).req id with
        transfer := some transfer, steps := rest })
  | passes {s later : State} {step : Step} {rest : List Step} (inv : Inv (beginStep s id step) (some id))
      (clear : bdrvFindConflictingRequest (beginStep s id step) id = none) (nothing : step.transfer = none)
      (goesOn : Outcome id (beginStep s id step) rest later) : Outcome id s (step :: rest) later

theorem execute_outcome (inv : Inv s (some id)) (steps : List Step) :
    Outcome id s steps (execute s id steps) := by
  induction steps generalizing s with
  | nil => exact .ends inv
  | cons step rest ih => ?_
  have begun := inv.beginStep step
  rw [execute]
  rw [begun.findConflict_eq]
  cases found : bdrvFindConflictingRequest (beginStep s id step) id with
  | some other =>
    dsimp only
    split
    · exact .refused begun
    · exact .waits begun found
  | none =>
    cases given : step.transfer with
    | none => exact .passes begun found given (ih begun)
    | some transfer => exact .transfers begun found given

theorem Outcome.inv (outcome : Outcome id s steps later) : Inv later none := by
  induction outcome with
  | ends inv => exact inv.ends
  | refused inv => exact inv.ends
  | waits inv found =>
    refine inv.settles rfl ?_ (fun free => absurd free (some_ne_none _)) fun other same =>
      find_some (same ▸ found)
    simp [(inv.running id rfl).2.2]
  | transfers inv clear given =>
    obtain ⟨-, free, -⟩ := inv.running id rfl
    refine inv.settles rfl (iff_of_true free (some_ne_none _)) (fun _ => find_none_iff.mp clear)
      fun other waits => ?_
    exact absurd (free.symm.trans waits) (some_ne_none other).symm
  | passes _ _ _ _ ih => exact ih

/-- What an event does. -/
inductive Stepped (units : Units) (s : State) : State → Prop
  | nothing : Stepped units s s
  | begins {id offset bytes : Nat} {call : Call} {steps : List Step} {later : State}
      (fresh : id ∉ s.tracked) (given : program units call = some (offset, bytes, steps))
      (outcome : Outcome id (trackedRequestBegin s id call offset bytes steps) steps later) :
        Stepped units s later
  | completes {id : Nat} {success : Bool} {transfer : Transfer} {later : State}
      (here : id ∈ s.tracked) (given : (s.req id).transfer = some transfer)
      (outcome : Outcome id (s.set id { s.req id with transfer := none })
        (if success then (s.req id).steps else afterFailure transfer (s.req id).steps) later) :
        Stepped units s later
  | resumes {id : Nat} {later : State} (here : id ∈ s.tracked) (waiting : (s.req id).waitingFor ≠ none)
      (outcome : Outcome id (s.set id { s.req id with waitingFor := none, woken := false })
      (s.req id).steps later) :
      Stepped units s later

theorem step_stepped {units : Units} {s : State} (inv : Inv s none) (event : Event) :
    Stepped units s (step units s event) := by
  cases event with
  | begins id call =>
    rw [step]
    split
    · exact .nothing
    next fresh =>
      split
      · exact .nothing
      next offset bytes steps given =>
        exact .begins fresh given (execute_outcome (inv.begins fresh call offset bytes steps) steps)
  | completes id success =>
    rw [step]
    split
    next here =>
      split
      · exact .nothing
      next transfer given =>
        have free := (inv.yielded id here (by simp)).mpr (by simp [given])
        have taken : Inv (s.set id { s.req id with transfer := none }) (some id) :=
          inv.take here free rfl rfl
        exact .completes here given (execute_outcome taken _)
    · exact .nothing
  | resumes id =>
    rw [step]
    split
    next ready =>
      obtain ⟨here, waiting, -⟩ := ready
      have idle : (s.req id).transfer = none := by
        by_contra busy
        exact waiting ((inv.yielded id here (by simp)).mpr busy)
      have taken : Inv (s.set id { s.req id with waitingFor := none, woken := false }) (some id) :=
        inv.take here rfl idle rfl
      exact .resumes here waiting (execute_outcome taken _)
    · exact .nothing

theorem Stepped.inv (inv : Inv s none) (stepped : Stepped units s later) : Inv later none := by
  cases stepped with
  | nothing => exact inv
  | begins _ _ outcome => exact outcome.inv
  | completes _ _ outcome => exact outcome.inv
  | resumes _ _ outcome => exact outcome.inv

theorem initial_inv : Inv initial none where
  nodup := nodup_nil
  counter := rfl
  running i no := absurd no (by simp)
  yielded i no := absurd no not_mem_nil
  quiet i no := absurd no not_mem_nil
  acyclic := .of_none fun x y no => absurd no.1 not_mem_nil
  alive i no := absurd no not_mem_nil

/-- A property that holds at first and that every event keeps holds at every switch. -/
theorem run_induction {units : Units} {good : State → Prop} (first : good initial)
    (keeps : ∀ s later, Inv s none → good s → Stepped units s later → good later)
    (events : List Event) : Inv (run units events) none ∧ good (run units events) := by
  induction events using reverseRecOn with
  | nil => exact ⟨initial_inv, first⟩
  | append_singleton events event ih =>
    have stepped := @step_stepped units _ ih.1 event
    rw [run, foldl_append]
    exact ⟨stepped.inv ih.1, keeps _ _ ih.1 ih.2 stepped⟩

theorem run_inv (units : Units) (events : List Event) : Inv (run units events) none :=
  (@run_induction units (fun _ => True) trivial (fun _ _ _ _ _ => trivial) events).1

/-- A request that can go on: the driver works for it, or it is scheduled. -/
def Ready (s : State) (i : Nat) : Prop := (s.req i).transfer ≠ none ∨ (s.req i).woken = true

/-- Whoever waits, waits in the end for a request that can go on. -/
theorem Inv.progress (inv : Inv s none) (member : i ∈ s.tracked) :
    ∃ j ∈ s.tracked, Ready s j ∧ Relation.ReflTransGen (Waits s) i j := by
  refine inv.acyclic.progress (fun i member blocked => ?_) member
  obtain ⟨idle, sleeping⟩ := not_or.mp blocked
  have waiting : (s.req i).waitingFor ≠ none := fun free => idle ((inv.yielded i member (by simp)).mp free)
  obtain ⟨j, waits⟩ := ne_none_iff_exists'.mp waiting
  exact ⟨j, inv.alive i member j waits (Bool.eq_false_iff.mpr sleeping), member, waits⟩

end Qemu.Block.Serialising
