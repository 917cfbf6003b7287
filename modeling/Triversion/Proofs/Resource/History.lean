import Triversion.Compute.Address
import Triversion.Proofs.Resource.Call

/-!
The slots of a resource are a history of its copies.

A slot holds what the latest copy in its direction lost that went through together with its hook,
and the shortfall of a version is read off the two slots that lead into it.
-/

namespace Triversion

/-- A copy that was begun: the resource as it was, and the direction. -/
structure Attempt (R : Version → Type) (σ : Type) where
  before : Resource R σ
  direction : Direction

namespace Attempt

variable {R : Version → Type} {σ : Type}

/-- The copy went through, and so did the hook that ran on it. -/
def succeeded (kind : Kind R σ) (attempt : Attempt R σ) : Bool :=
  match (attempt.before.transfer kind attempt.direction).result with
  | .error _ => false
  | .ok copied =>
    (attempt.before.bridge kind attempt.direction copied attempt.before.state).verdict = .passed

/-- What the copy lost. -/
def losses (kind : Kind R σ) (attempt : Attempt R σ) : List Loss :=
  (attempt.before.transfer kind attempt.direction).losses

/-- The latest of several attempts that succeeded in a direction. -/
def latest? (kind : Kind R σ) (direction : Direction) (attempts : List (Attempt R σ)) :
    Option (Attempt R σ) :=
  (attempts.filter fun attempt => attempt.direction = direction && attempt.succeeded kind).getLast?

/-- The latest success of two histories is the one of the later history, if it has any. -/
theorem latest?_append (kind : Kind R σ) (direction : Direction)
    (earlier later : List (Attempt R σ)) :
    latest? kind direction (earlier ++ later) =
      (latest? kind direction later).or (latest? kind direction earlier) := by
  simp only [latest?, List.filter_append, List.getLast?_append]

end Attempt

namespace Resource

variable {R : Version → Type} {σ : Type}

/-- The copies begun in several directions, up to the first one that does not succeed. -/
def attempts (kind : Kind R σ) (resource : Resource R σ) : List Direction → List (Attempt R σ)
  | [] => []
  | direction :: rest =>
    let attempt : Attempt R σ := ⟨resource, direction⟩
    -- The copies after a failed one are never begun.
    if attempt.succeeded kind then
      attempt :: attempts kind (convey kind resource direction).1 rest
    else [attempt]

/-- The copies between versions that one call begins. -/
def attemptsOf (kind : Kind R σ) (resource : Resource R σ) (call : Call R) :
    List (Attempt R σ) :=
  match entered? kind resource call with
  | none => []
  | some (version, start) => attempts kind start (Direction.outbound version)

/-- The copies between versions that a run of calls begins, in order. -/
def history (kind : Kind R σ) (resource : Resource R σ) : List (Call R) → List (Attempt R σ)
  | [] => []
  | call :: rest =>
    attemptsOf kind resource call ++ history kind (perform kind resource call).1 rest

/-- What the latest success in a direction lost, or else what the slot held before. -/
def latestLosses (kind : Kind R σ) (slot : List Loss) (direction : Direction)
    (attempts : List (Attempt R σ)) : List Loss :=
  ((Attempt.latest? kind direction attempts).map (Attempt.losses kind)).getD slot

theorem latestLosses_append (kind : Kind R σ) (slot : List Loss) (direction : Direction)
    (earlier later : List (Attempt R σ)) :
    latestLosses kind slot direction (earlier ++ later) =
      latestLosses kind (latestLosses kind slot direction earlier) direction later := by
  -- A later success hides the earlier ones, and without one they still count.
  simp only [latestLosses, Attempt.latest?_append]
  cases Attempt.latest? kind direction later <;> rfl

/-- A conveyance that succeeds fills its slot with the losses of its copy, and no other one. -/
theorem convey_of_succeeded {kind : Kind R σ} {resource : Resource R σ} {direction : Direction}
    (succeeded : (⟨resource, direction⟩ : Attempt R σ).succeeded kind = true) :
    (convey kind resource direction).2 = .ok () ∧
      (convey kind resource direction).1.slots =
        fillSlot resource.slots direction (resource.transfer kind direction).losses := by
  -- A copy that went through and a hook that passed are all a conveyance asks for.
  obtain ⟨_, failed, _⟩ | ⟨_, _, _, _, fits, bridged, ⟨_, broken, _⟩ | ⟨_, conveyed⟩⟩ :=
    convey_cases kind resource direction
  · simp [Attempt.succeeded, failed] at succeeded
  · simp only [Attempt.succeeded, fits, bridged, decide_eq_true_eq] at succeeded
    subst succeeded
    contradiction
  · rw [conveyed]
    exact ⟨rfl, rfl⟩

/-- A conveyance that does not succeed fails and leaves all slots as they were. -/
theorem convey_of_not_succeeded {kind : Kind R σ} {resource : Resource R σ} {direction : Direction}
    (failed : (⟨resource, direction⟩ : Attempt R σ).succeeded kind = false) :
    (∃ fault, (convey kind resource direction).2 = .error fault) ∧
      (convey kind resource direction).1.slots = resource.slots := by
  -- Either the copy has failed or its hook, and both end before the slot is filled.
  obtain ⟨_, _, conveyed⟩ | ⟨_, _, _, _, fits, bridged, ⟨_, _, conveyed⟩ | ⟨rfl, _⟩⟩ :=
    convey_cases kind resource direction
  · rw [conveyed]
    exact ⟨⟨_, rfl⟩, rfl⟩
  · rw [conveyed]
    exact ⟨⟨_, rfl⟩, rfl⟩
  · simp [Attempt.succeeded, fits, bridged] at failed

/-- Copying in several directions fills the slot of each direction with its latest success. -/
theorem slots_conveyAll (kind : Kind R σ) (resource : Resource R σ) (directions : List Direction)
    (direction : Direction) :
    (conveyAll kind resource directions).1.slots direction =
      latestLosses kind (resource.slots direction) direction
        (attempts kind resource directions) := by
  -- The induction follows the directions; what a failed copy leaves is what the slots end with.
  induction directions generalizing resource with
  | nil => rfl
  | cons first rest ih =>
    cases outcome : (⟨resource, first⟩ : Attempt R σ).succeeded kind with
    | false =>
      -- A failed copy ends the propagation, with the slots as they were.
      obtain ⟨⟨fault, ends⟩, slots⟩ := convey_of_not_succeeded outcome
      have stopped : conveyAll kind resource (first :: rest) =
          ((convey kind resource first).1, .error fault) := by
        rw [conveyAll]
        split
        · next proceeds => rw [proceeds] at ends; contradiction
        · next stops => rw [stops] at ends ⊢; simpa using ends
      simp [stopped, slots, attempts, outcome, latestLosses, Attempt.latest?]
    | true =>
      obtain ⟨ends, slots⟩ := convey_of_succeeded outcome
      have proceeds : conveyAll kind resource (first :: rest) =
          conveyAll kind (convey kind resource first).1 rest := by
        rw [conveyAll]
        split
        · next goes => rw [goes]
        · next stops => rw [stops] at ends; contradiction
      -- The slot of the first direction now holds its losses, and every other slot is kept.
      have here : latestLosses kind (resource.slots direction) direction [⟨resource, first⟩] =
          (convey kind resource first).1.slots direction := by
        by_cases same : first = direction
        · subst same
          simp [latestLosses, Attempt.latest?, outcome, slots, fillSlot, Attempt.losses]
        · simp [latestLosses, Attempt.latest?, same, slots, fillSlot, Ne.symm same]
      rw [proceeds, ih, attempts, if_pos outcome, ← List.singleton_append, latestLosses_append,
        here]

/-- One call fills the slots with its own copies and keeps what it does not copy. -/
theorem slots_perform (kind : Kind R σ) (resource : Resource R σ) (call : Call R)
    (direction : Direction) :
    (perform kind resource call).1.slots direction =
      latestLosses kind (resource.slots direction) direction
        (attemptsOf kind resource call) := by
  unfold attemptsOf
  -- A call that ends before any copy has begun none and keeps all slots.
  cases entered : entered? kind resource call with
  | none => rw [slots_perform_of_not_entered entered]; rfl
  | some start =>
    obtain ⟨version, start⟩ := start
    obtain ⟨_, ⟨x, rfl⟩, performed⟩ := entered?_cases entered
    rw [performed, slots_conveyAll, slots_withValue]

/-- After any run, a slot holds what the latest success of the whole history lost. -/
theorem slots_performAll (kind : Kind R σ) (resource : Resource R σ)
    (calls : List (Call R)) (direction : Direction) :
    (performAll kind resource calls).slots direction =
      latestLosses kind (resource.slots direction) direction
        (history kind resource calls) := by
  -- Each call adds its copies behind those of the calls before it.
  induction calls generalizing resource with
  | nil => rfl
  | cons call rest ih =>
    rw [performAll, ih, history, latestLosses_append, slots_perform]

/-- What a version lacks is what the slots into it hold, in table order, each with its direction. -/
theorem missing_of_shortfall {resource : Resource R σ} {version : Version} {lacking : Shortfall}
    (found : resource.shortfall version = some lacking) :
    lacking.missing =
      (Direction.all.filter fun direction => direction.dest = version).flatMap fun direction =>
        (resource.slots direction).map fun loss => ⟨direction, loss.path, loss.value⟩ := by
  -- The inbound directions of a version are those of the table that end in it.
  have listed : resource.missing version = lacking.missing := by
    simp only [shortfall, Shortfall.ofList?] at found
    split at found
    · contradiction
    · exact congrArg Shortfall.missing (Option.some.inj found)
  rw [← listed, missing, Direction.inbound_eq_filter]
  rfl

/--
The slots are an exact history.

After any run from a new resource, each slot holds what the latest copy in its direction lost that
succeeded together with its hook. What a version lacks is read off the two slots into it.
-/
theorem slots_are_history {kind : Kind R σ} {id : Identity} {state : σ} {created : Resource R σ}
    (made : new kind id state = .ok created) (calls : List (Call R)) :
    let resource := performAll kind created calls
    (∀ direction, resource.slots direction =
      ((Attempt.latest? kind direction (history kind created calls)).map
        (Attempt.losses kind)).getD []) ∧
    (∀ version, resource.shortfall version = none ↔
      ∀ direction, direction.dest = version → resource.slots direction = []) ∧
    (∀ version lacking, resource.shortfall version = some lacking →
      lacking.missing =
        (Direction.all.filter fun direction => direction.dest = version).flatMap fun direction =>
          (resource.slots direction).map fun loss => ⟨direction, loss.path, loss.value⟩) := by
  refine ⟨fun direction => ?_, fun version => ?_, fun version lacking found => ?_⟩
  · have latest := slots_performAll kind created calls direction
    rwa [(new_eq_ok made).2] at latest
  · exact shortfall_eq_none_iff _ version
  · exact missing_of_shortfall found

/-- A flag that alpha alone knows is set; then it is cleared together with a purpose that fails. -/
def flagSetThenHookFails : List (Call AddressOf) := [
  .edit .alpha fun x => { x with featureFlag := true },
  .edit .alpha fun x => { x with featureFlag := false, addressPurpose := "TELEPORT" }]

/-- The failed hook keeps the second copy out of the slot, which still reports the flag. -/
theorem slots_are_history_of_failed_hook :
    ∃ created, new Address.kind (Address.globalId "p" "a") () = .ok created ∧
      let resource := performAll Address.kind created flagSetThenHookFails
      resource.slots .alphaToStable = [⟨[.field "FeatureFlag"], .bool true⟩] ∧
      (∀ direction, resource.slots direction =
        ((Attempt.latest? Address.kind direction
          (history Address.kind created flagSetThenHookFails)).map
            (Attempt.losses Address.kind)).getD []) ∧
      ∀ version, resource.shortfall version = none ↔
        ∀ direction, direction.dest = version → resource.slots direction = [] := by
  refine ⟨_, rfl, by decide +kernel, ?_⟩
  obtain ⟨slots, empty, _⟩ := slots_are_history
    (show new Address.kind (Address.globalId "p" "a") () = .ok _ from rfl) flagSetThenHookFails
  exact ⟨slots, empty⟩

end Resource

end Triversion
