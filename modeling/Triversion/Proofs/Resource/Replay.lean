import Triversion.Compute.Address
import Triversion.Proofs.Resource.History
import Triversion.Resource.Script

/-!
What a script that stands in for the bridging hooks observes.

A call runs the hooks out of its own version until a copy or a hook fails, and each hook uses up the
expectation whose turn it is. So a script has recorded the hooks of all calls in order, and what is
left of it starts behind as many expectations.
-/

namespace Triversion

/-- A hook that ran, and how it ended. -/
structure HookCall where
  direction : Direction
  verdict : Verdict
  deriving DecidableEq

namespace HookCall

/-- A hook that ran and passed. -/
def pass (direction : Direction) : HookCall :=
  ⟨direction, .passed⟩

/-- The failure that a hook brings about, unless it passes. -/
def fault? (hook : HookCall) : Option Fault :=
  hook.verdict.fault? hook.direction

end HookCall

namespace Attempt

variable {R : Version → Type} {σ : Type}

/-- The hook that ran on a copy, unless the copy failed. -/
def hook? (kind : Kind R σ) (attempt : Attempt R σ) : Option HookCall :=
  match (attempt.before.transfer kind attempt.direction).result with
  | .error _ => none
  | .ok copied =>
    some ⟨attempt.direction,
      (attempt.before.bridge kind attempt.direction copied attempt.before.state).verdict⟩

end Attempt

namespace Resource

variable {R : Version → Type}

section Hooks

variable {σ : Type}

/-- The hooks that run on the copies in several directions, up to the first failure. -/
def hooks (kind : Kind R σ) (resource : Resource R σ) (directions : List Direction) :
    List HookCall :=
  (attempts kind resource directions).filterMap (Attempt.hook? kind)

/-- The hooks that one call runs. -/
def hooksOf (kind : Kind R σ) (resource : Resource R σ) (call : Call R) : List HookCall :=
  (attemptsOf kind resource call).filterMap (Attempt.hook? kind)

/-- The hooks that a run of calls runs, in order. -/
def hookHistory (kind : Kind R σ) (resource : Resource R σ) (calls : List (Call R)) :
    List HookCall :=
  (history kind resource calls).filterMap (Attempt.hook? kind)

/-- Copies in several directions with the hooks that run on them, and what they end in. -/
inductive Runs (kind : Kind R σ) :
    Resource R σ → List Direction → List HookCall → Resource R σ × Except Fault Unit → Prop where
  | done {resource : Resource R σ} : Runs kind resource [] [] (resource, .ok ())
  | copyFails {resource : Resource R σ} {direction : Direction} {rest : List Direction}
      {fault : CopyFault}
      (failed : (resource.transfer kind direction).result = .error fault) :
      Runs kind resource (direction :: rest) [] (resource, .error (.copy fault))
  | hookFails {resource final : Resource R σ} {direction : Direction} {rest : List Direction}
      {copied : R direction.dest} {hook : HookCall} {fault : Fault}
      (fits : (resource.transfer kind direction).result = .ok copied)
      (called : hook = ⟨direction,
        (resource.bridge kind direction copied resource.state).verdict⟩)
      (state : final.state = (resource.bridge kind direction copied resource.state).state)
      (broken : hook.fault? = some fault) :
      Runs kind resource (direction :: rest) [hook] (final, .error fault)
  | passes {resource next : Resource R σ} {direction : Direction} {rest : List Direction}
      {copied : R direction.dest} {hooks : List HookCall}
      {ending : Resource R σ × Except Fault Unit}
      (fits : (resource.transfer kind direction).result = .ok copied)
      (passed : (resource.bridge kind direction copied resource.state).verdict = .passed)
      (state : next.state = (resource.bridge kind direction copied resource.state).state)
      (others : Runs kind next rest hooks ending) :
      Runs kind resource (direction :: rest) (.pass direction :: hooks) ending

/-- Copying in several directions runs its hooks. -/
theorem conveyAll_runs (kind : Kind R σ) (resource : Resource R σ) (directions : List Direction) :
    Runs kind resource directions (hooks kind resource directions)
      (conveyAll kind resource directions) := by
  -- The first copy decides whether any hook runs on it, and whether the other copies are begun.
  induction directions generalizing resource with
  | nil => exact .done
  | cons direction rest ih =>
    obtain ⟨fault, failed, conveyed⟩ | ⟨copied, value, next, verdict, fits, bridged,
      ⟨fault, broken, conveyed⟩ | ⟨rfl, conveyed⟩⟩ := convey_cases kind resource direction
    · have none : hooks kind resource (direction :: rest) = [] := by
        simp [hooks, attempts, Attempt.succeeded, Attempt.hook?, failed]
      rw [none, conveyAll, conveyed]
      exact .copyFails failed
    · have stops : verdict ≠ .passed := by
        rintro rfl
        contradiction
      have one : hooks kind resource (direction :: rest) = [⟨direction, verdict⟩] := by
        simp [hooks, attempts, Attempt.succeeded, Attempt.hook?, fits, bridged, stops]
      rw [one, conveyAll, conveyed]
      exact .hookFails fits (by rw [bridged]) (by rw [bridged]) broken
    · have more : hooks kind resource (direction :: rest) =
          .pass direction :: hooks kind (convey kind resource direction).1 rest := by
        simp [hooks, attempts, Attempt.succeeded, Attempt.hook?, fits, bridged, HookCall.pass]
      rw [more, conveyAll, conveyed]
      exact .passes fits (by rw [bridged]) (by rw [bridged]) (ih _)

/-- A hook that does not pass is the last one, and its failure is how the copies end. -/
theorem Runs.of_fault {kind : Kind R σ} {resource : Resource R σ} {directions : List Direction}
    {hooks : List HookCall} {ending : Resource R σ × Except Fault Unit}
    (runs : Runs kind resource directions hooks ending) {earlier later : List HookCall}
    {hook : HookCall} (split : hooks = earlier ++ hook :: later) {fault : Fault}
    (broken : hook.fault? = some fault) : later = [] ∧ ending.2 = .error fault := by
  -- A hook that stands in front of others has passed, so only the last one can be the broken one.
  induction runs generalizing earlier with
  | done | copyFails => simp at split
  | hookFails _ _ _ fails =>
    cases earlier with
    | nil =>
      obtain ⟨rfl, rfl⟩ := List.cons.inj split
      exact ⟨rfl, congrArg Except.error (Option.some.inj (fails.symm.trans broken))⟩
    | cons => simp at split
  | passes _ _ _ _ ih =>
    cases earlier with
    | nil =>
      obtain ⟨rfl, _⟩ := List.cons.inj split
      contradiction
    | cons _ earlier => exact ih (List.cons.inj split).2

/-- How copies in several directions, and the hooks that run on them, come to an end. -/
inductive Stops (kind : Kind R σ) (final : Resource R σ) (directions : List Direction) :
    List HookCall → Except Fault Unit → Prop where
  /-- Every hook runs and passes. -/
  | never : Stops kind final directions (directions.map .pass) (.ok ())
  /-- The hooks before the first copy that fails run and pass, and no other one runs. -/
  | atCopy (earlier : List Direction) {later : List Direction} {direction : Direction}
      {fault : CopyFault}
      (split : directions = earlier ++ direction :: later)
      (failed : (final.transfer kind direction).result = .error fault) :
      Stops kind final directions (earlier.map .pass) (.error (.copy fault))
  /-- The hooks before the first one that fails pass, and no other one runs after it. -/
  | atHook (earlier : List Direction) {later : List Direction} {hook : HookCall} {fault : Fault}
      (split : directions = earlier ++ hook.direction :: later)
      (broken : hook.fault? = some fault) :
      Stops kind final directions (earlier.map .pass ++ [hook]) (.error fault)

/-- Copies stop in one of these ways. -/
theorem Runs.stops {kind : Kind R σ} {resource : Resource R σ} {directions : List Direction}
    {hooks : List HookCall} {ending : Resource R σ × Except Fault Unit}
    (runs : Runs kind resource directions hooks ending) :
    Stops kind ending.1 directions hooks ending.2 := by
  induction runs with
  | done => exact .never
  | copyFails failed => exact .atCopy [] rfl failed
  | hookFails _ called _ broken =>
    subst called
    exact .atHook [] rfl broken
  | @passes _ _ direction _ _ _ _ _ _ _ _ ih =>
    -- A hook that passes stands before the point at which the others stop.
    generalize endsIn : Prod.snd _ = result at ih
    cases ih with
    | never => exact .never
    | atCopy earlier split failed =>
      exact .atCopy (direction :: earlier) (congrArg (direction :: ·) split) failed
    | atHook earlier split broken =>
      exact .atHook (direction :: earlier) (congrArg (direction :: ·) split) broken

/-- A call that ends before any copy runs no hook. -/
theorem hooksOf_of_not_entered {kind : Kind R σ} {resource : Resource R σ} {call : Call R}
    (ended : entered? kind resource call = none) : hooksOf kind resource call = [] := by
  rw [hooksOf, attemptsOf, ended, List.filterMap_nil]

/-- A call that copies runs the hooks out of its version. -/
theorem hooksOf_of_entered {kind : Kind R σ} {resource start : Resource R σ} {call : Call R}
    {version : Version} (entered : entered? kind resource call = some (version, start)) :
    hooksOf kind resource call = hooks kind start (Direction.outbound version) := by
  rw [hooksOf, attemptsOf, entered, hooks]

/-- The hooks that one call runs, and how the call ends. -/
structure Answers (kind : Kind R σ) (before : Resource R σ) (call : Call R)
    (hooks : List HookCall) (ending : Resource R σ × Except Fault Unit) : Prop where
  /-- A change that breaks the policy runs no hook. -/
  refused : ∀ version change fault, call = .edit version change →
    (kind.policy version).check version (kind.codec version)
      (change (before.values.get version)) = .error fault →
    hooks = [] ∧ ending.2 = .error fault
  /-- A replacement that cannot be copied into its own version runs no hook. -/
  misfit : ∀ version x fault, call = .replace version x →
    (before.ownCopy kind version x).result = .error fault →
    hooks = [] ∧ ending.2 = .error (.copy fault)
  freezes : call = .freeze → hooks = []
  /-- All other calls run the hooks out of their version, up to the first failure. -/
  propagates : ∀ version start, entered? kind before call = some (version, start) →
    call.version? = some version ∧
      Stops kind ending.1 (Direction.outbound version) hooks ending.2

/-- A call runs hooks only once its version has been set, and stops at the first failure. -/
theorem perform_answers (kind : Kind R σ) (before : Resource R σ) (call : Call R) :
    Answers kind before call (hooksOf kind before call) (perform kind before call) := by
  refine ⟨?_, ?_, ?_, ?_⟩
  · rintro version change fault rfl broken
    have ended : entered? kind before (.edit version change) = none := by
      simp only [entered?, broken]
    exact ⟨hooksOf_of_not_entered ended, by simp only [perform, edit, broken]⟩
  · rintro version x fault rfl failed
    have ended : entered? kind before (.replace version x) = none := by
      simp only [entered?, failed]
    unfold ownCopy at failed
    exact ⟨hooksOf_of_not_entered ended, by simp only [perform, replace, failed]⟩
  · rintro rfl
    exact hooksOf_of_not_entered rfl
  · intro version start entered
    obtain ⟨named, _, performed⟩ := entered?_cases entered
    rw [hooksOf_of_entered entered, performed]
    exact ⟨named, (conveyAll_runs kind start _).stops⟩

/-- A hook that does not pass is the last one of its call, and its failure that of the call. -/
theorem perform_of_fault {kind : Kind R σ} {before : Resource R σ} {call : Call R}
    {earlier later : List HookCall} {hook : HookCall}
    (split : hooksOf kind before call = earlier ++ hook :: later) {fault : Fault}
    (broken : hook.fault? = some fault) :
    later = [] ∧ (perform kind before call).2 = .error fault := by
  cases entered : entered? kind before call with
  | none => simp [hooksOf_of_not_entered entered] at split
  | some start =>
    obtain ⟨version, start⟩ := start
    rw [hooksOf_of_entered entered] at split
    rw [(entered?_cases entered).2.2]
    exact (conveyAll_runs kind start _).of_fault split broken

end Hooks

end Resource

/-- The verdict on a hook that meets an expectation. -/
def Expectation.verdict (expectation : Expectation) : Verdict :=
  match expectation.failure with
  | none => .passed
  | some reason => .failed reason

namespace Script

/-- The verdict on a hook in a direction, by the expectation whose turn it is, if any is left. -/
def answer (turn : Option Expectation) (direction : Direction) : Verdict :=
  match turn with
  | none => .outOfScript ("Unexpected hook " ++ direction.text ++ ", no expectations left")
  | some next =>
    if next.direction = direction then next.verdict
    else .outOfScript
      ("Unexpected hook " ++ direction.text ++ ", expected " ++ next.direction.text)

/-- Every hook is recorded, uses up one expectation, and is answered by it. -/
theorem call_eq (script : Script) (direction : Direction) :
    script.call direction =
      (⟨script.expected.tail, script.calls ++ [direction]⟩,
        answer script.expected.head? direction) := by
  -- The expectation is used up whether or not the hook meets it.
  obtain ⟨expected, calls⟩ := script
  cases expected with
  | nil => rfl
  | cons next rest =>
    simp only [call, answer, Expectation.verdict, List.tail_cons, List.head?_cons]
    split
    · cases next.failure <;> rfl
    · rfl

/-- Expectations are met in the order in which they are declared. -/
theorem foldl_expect (expected : List Expectation) (script : Script) :
    expected.foldl expect script = ⟨script.expected ++ expected, script.calls⟩ := by
  induction expected generalizing script with
  | nil => simp
  | cons first rest ih => simp [ih, expect]

/-- A script is played out if nothing is left of it. -/
theorem checkFinished_eq_ok_iff {script : Script} :
    script.checkFinished = .ok () ↔ script.expected = [] := by
  obtain ⟨expected, calls⟩ := script
  cases expected <;> simp [checkFinished]

/-- A script that has been told of some hooks. -/
structure Replays (before : Script) (hooks : List HookCall) (after : Script) : Prop where
  expected : after.expected = before.expected.drop hooks.length
  calls : after.calls = before.calls ++ hooks.map HookCall.direction
  answered : ∀ (k : Nat) (hook : HookCall), hooks[k]? = some hook →
    hook.verdict = answer before.expected[k]? hook.direction

namespace Replays

variable {before between after : Script}

/-- A script that has been told of nothing is as before. -/
theorem none (script : Script) : Replays script [] script :=
  ⟨rfl, by simp, by simp⟩

/-- A script is told of one hook. -/
theorem one (script : Script) (direction : Direction) :
    Replays script [⟨direction, (script.call direction).2⟩] (script.call direction).1 := by
  rw [call_eq]
  refine ⟨by simp, rfl, fun k hook listed => ?_⟩
  cases k with
  | zero =>
    obtain rfl := Option.some.inj listed
    rw [List.head?_eq_getElem?]
  | succ k => simp at listed

/-- A script is told of some hooks and then of others. -/
theorem append {first second : List HookCall} (earlier : Replays before first between)
    (later : Replays between second after) : Replays before (first ++ second) after := by
  refine ⟨?_, ?_, fun k hook listed => ?_⟩
  · rw [later.expected, earlier.expected, List.drop_drop, List.length_append]
  · rw [later.calls, earlier.calls, List.map_append, List.append_assoc]
  · -- The turn of a later hook comes as many expectations on as there are earlier hooks.
    by_cases inFirst : k < first.length
    · rw [List.getElem?_append_left inFirst] at listed
      exact earlier.answered k hook listed
    · rw [List.getElem?_append_right (by omega)] at listed
      have turn := later.answered _ hook listed
      rwa [earlier.expected, List.getElem?_drop, Nat.add_sub_cancel' (by omega)] at turn

end Replays

/-- Hooks that agree with the expectations position by position. -/
def Agrees (expected : List Expectation) (hooks : List HookCall) : Prop :=
  ∀ (k : Nat) (hook : HookCall), hooks[k]? = some hook →
    ∃ next, expected[k]? = some next ∧ next.direction = hook.direction

namespace Agrees

variable {expected : List Expectation} {hooks : List HookCall} {hook : HookCall}

/-- No hook disagrees where none ran. -/
theorem nil (expected : List Expectation) : Agrees expected [] := by
  intro k hook listed
  simp at listed

/-- One more hook agrees if the expectation whose turn it is names its direction. -/
theorem concat (agrees : Agrees expected hooks) {next : Expectation}
    (turn : expected[hooks.length]? = some next) (same : next.direction = hook.direction) :
    Agrees expected (hooks ++ [hook]) := by
  -- Only the last position is new.
  intro k listed found
  by_cases before : k < hooks.length
  · rw [List.getElem?_append_left before] at found
    exact agrees k listed found
  · rw [List.getElem?_append_right (by omega), List.getElem?_singleton] at found
    obtain ⟨last, rfl⟩ := by simpa using found
    obtain rfl : k = hooks.length := by omega
    exact ⟨next, turn, same⟩

/-- A hook that ends the agreement is answered by something other than its script. -/
theorem answer_of_not (agrees : Agrees expected hooks)
    (disagrees : ¬ Agrees expected (hooks ++ [hook])) :
    ∃ reason, answer expected[hooks.length]? hook.direction = .outOfScript reason := by
  cases turn : expected[hooks.length]? with
  | none => exact ⟨_, rfl⟩
  | some next =>
    have different : next.direction ≠ hook.direction := fun same =>
      disagrees (agrees.concat turn same)
    exact ⟨_, if_neg different⟩

/-- Where agreement is lost, there is a first hook that loses it. -/
theorem exists_first (agrees : Agrees expected hooks) {more : List HookCall}
    (disagrees : ¬ Agrees expected (hooks ++ more)) :
    ∃ earlier hook later, more = earlier ++ hook :: later ∧ Agrees expected (hooks ++ earlier) ∧
      ¬ Agrees expected (hooks ++ earlier ++ [hook]) := by
  -- Either the next hook loses the agreement, or it joins the hooks that agree.
  induction more generalizing hooks with
  | nil => simp [agrees] at disagrees
  | cons first rest ih =>
    by_cases goesOn : Agrees expected (hooks ++ [first])
    · obtain ⟨earlier, hook, later, rfl, agreed, lost⟩ := ih goesOn (by simpa using disagrees)
      exact ⟨first :: earlier, hook, later, rfl, by simpa using agreed, by simpa using lost⟩
    · exact ⟨[], first, rest, rfl, by simpa using agrees, by simpa using goesOn⟩

end Agrees

namespace Replays

variable {expected : List Expectation} {calls : List Direction} {after : Script}
  {hooks more : List HookCall}

/-- Hooks that agree with the expectations end as these say. -/
theorem scripted (told : Replays ⟨expected, calls⟩ hooks after) (agrees : Agrees expected hooks)
    {k : Nat} {hook : HookCall} (listed : hooks[k]? = some hook) :
    ∃ next, expected[k]? = some next ∧ hook = ⟨next.direction, next.verdict⟩ := by
  obtain ⟨next, turn, same⟩ := agrees k hook listed
  have answered := told.answered k hook listed
  simp only [turn, answer, if_pos same] at answered
  exact ⟨next, turn, by rw [same, ← answered]⟩

/-- The first hook that disagrees with the expectations ends out of script. -/
theorem exists_surprise (told : Replays ⟨expected, calls⟩ (hooks ++ more) after)
    (agrees : Agrees expected hooks) (disagrees : ¬ Agrees expected (hooks ++ more)) :
    ∃ earlier hook later reason, more = earlier ++ hook :: later ∧
      Agrees expected (hooks ++ earlier) ∧
      (∀ next, expected[(hooks ++ earlier).length]? = some next →
        next.direction ≠ hook.direction) ∧
      hook.verdict = .outOfScript reason := by
  obtain ⟨earlier, hook, later, rfl, agreed, lost⟩ := agrees.exists_first disagrees
  obtain ⟨reason, answer⟩ := agreed.answer_of_not lost
  have turn : (hooks ++ (earlier ++ hook :: later))[(hooks ++ earlier).length]? = some hook := by
    rw [← List.append_assoc, List.getElem?_append_right (Nat.le_refl _)]
    simp
  exact ⟨earlier, hook, later, reason, rfl, agreed,
    fun next left same => lost (agreed.concat left same), (told.answered _ hook turn).trans answer⟩

end Replays

end Script

namespace Resource

variable {R : Version → Type} {codec : (version : Version) → Codec (R version)}
  {policy : Version → Policy} {exclusions : Exclusions}

/-- A script is told of the hooks that run on copies in several directions. -/
theorem Runs.replays {resource : Resource R Script} {directions : List Direction}
    {hooks : List HookCall} {ending : Resource R Script × Except Fault Unit}
    (runs : Runs (Kind.scripted codec policy exclusions) resource directions hooks ending) :
    Script.Replays resource.state hooks ending.1.state := by
  -- A hook that runs is one call of the script, and a copy that fails is none.
  induction runs with
  | done | copyFails => exact .none _
  | @hookFails resource _ direction _ _ _ _ _ called state _ =>
    subst called
    exact state ▸ Script.Replays.one resource.state direction
  | @passes resource next direction _ _ _ _ _ passed state _ ih =>
    have first := Script.Replays.one resource.state direction
    have toldNext : next.state = (resource.state.call direction).1 := state
    rw [show (resource.state.call direction).2 = .passed from passed] at first
    rw [toldNext] at ih
    exact first.append ih

/-- A script is told of the hooks of a call. -/
theorem replays_perform (resource : Resource R Script) (call : Call R) :
    let kind := Kind.scripted codec policy exclusions
    Script.Replays resource.state (hooksOf kind resource call)
      (perform kind resource call).1.state := by
  intro kind
  cases entered : entered? kind resource call with
  | none =>
    -- The script is not asked before the first copy.
    rw [hooksOf_of_not_entered entered, state_perform_of_not_entered entered]
    exact .none _
  | some start =>
    obtain ⟨version, start⟩ := start
    obtain ⟨_, ⟨x, rfl⟩, performed⟩ := entered?_cases entered
    rw [hooksOf_of_entered entered, performed]
    exact (conveyAll_runs kind (resource.withValue version x) _).replays

/-- A script is told of the hooks of all calls of a run. -/
theorem replays_performAll (resource : Resource R Script) (calls : List (Call R)) :
    let kind := Kind.scripted codec policy exclusions
    Script.Replays resource.state (hookHistory kind resource calls)
      (performAll kind resource calls).state := by
  intro kind
  induction calls generalizing resource with
  | nil => exact .none _
  | cons call rest ih =>
    rw [hookHistory, history, List.filterMap_append]
    exact (replays_perform resource call).append (ih _)

variable (codec policy exclusions) in
/--
A script is replayed exactly.

Whatever calls have been made of a resource, its script has recorded the hooks that they ran, and
what is left of it starts behind as many expectations. Hooks that agree with the script end as it
says, and their failures are those of their calls. The first hook that disagrees, or finds nothing
left to agree with, is recorded as well, and ends its call on the spot.
-/
theorem script_is_replayed {expected : List Expectation} {resource : Resource R Script}
    (scripted : resource.state = expected.foldl Script.expect Script.empty)
    (earlier : List (Call R)) (call : Call R) :
    let kind := Kind.scripted codec policy exclusions
    let before := performAll kind resource earlier
    let ending := perform kind before call
    let past := hookHistory kind resource earlier
    let now := hooksOf kind before call
    let script := ending.1.state
    Answers kind before call now ending ∧
    script.calls = (past ++ now).map HookCall.direction ∧
    script.expected = expected.drop script.calls.length ∧
    (script.checkFinished = .ok () ↔ script.expected = []) ∧
    (Script.Agrees expected (past ++ now) →
      (∀ (k : Nat) (hook : HookCall), (past ++ now)[k]? = some hook →
        ∃ next, expected[k]? = some next ∧ hook = ⟨next.direction, next.verdict⟩) ∧
      ∀ direction reason, ⟨direction, .failed reason⟩ ∈ now →
        ending.2 = .error (.hook direction reason)) ∧
    (Script.Agrees expected past → ¬ Script.Agrees expected (past ++ now) →
      ∃ agreed hook reason, past ++ now = agreed ++ [hook] ∧ Script.Agrees expected agreed ∧
        (∀ next, expected[agreed.length]? = some next → next.direction ≠ hook.direction) ∧
        hook.verdict = .outOfScript reason ∧ ending.2 = .error (.outOfScript reason) ∧
        script.calls = agreed.map HookCall.direction ++ [hook.direction]) := by
  intro kind before ending past now script
  have told : Script.Replays ⟨expected, []⟩ (past ++ now) script := by
    have declared : resource.state = ⟨expected, []⟩ := by
      rw [scripted, Script.foldl_expect]
      rfl
    have toldPast : Script.Replays resource.state past before.state :=
      replays_performAll resource earlier
    have toldNow : Script.Replays before.state now script := replays_perform before call
    exact declared ▸ toldPast.append toldNow
  have recorded : script.calls = (past ++ now).map HookCall.direction := told.calls
  refine ⟨perform_answers kind before call, recorded, ?_, Script.checkFinished_eq_ok_iff, ?_, ?_⟩
  · rw [recorded, List.length_map]
    exact told.expected
  · refine fun agrees => ⟨fun _ _ listed => told.scripted agrees listed, ?_⟩
    intro direction reason ran
    obtain ⟨first, later, split⟩ := List.append_of_mem ran
    exact (perform_of_fault split rfl).2
  · intro agrees disagrees
    obtain ⟨first, hook, later, reason, split, agreed, unmet, surprised⟩ :=
      told.exists_surprise agrees disagrees
    -- Nothing runs in the call after a hook that is out of script.
    have broken : hook.fault? = some (.outOfScript reason) := by
      rw [HookCall.fault?, surprised, Verdict.fault?]
    obtain ⟨rfl, ends⟩ := perform_of_fault split broken
    have all : past ++ now = past ++ first ++ [hook] := by rw [split, List.append_assoc]
    refine ⟨past ++ first, hook, reason, all, agreed, unmet, surprised, ends, ?_⟩
    rw [recorded, all, List.map_append, List.map_singleton]

/-- A hook into stable that passes, and one into beta that fails. -/
def betaFails : List Expectation :=
  [⟨.alphaToStable, none⟩, ⟨.alphaToBeta, some "boom"⟩]

/-- Addresses whose hooks follow a script. -/
def scriptedKind : Kind AddressOf Script :=
  Kind.scripted Address.kind.codec Address.kind.policy Address.kind.exclusions

/-- An address in which nothing is set, and whose hooks are to fail into beta. -/
def scriptedAddress : Resource AddressOf Script :=
  ⟨Address.globalId "p" "a", ⟨.initial, .initial, .initial⟩, fun _ => [],
    betaFails.foldl Script.expect Script.empty⟩

/-- A flag that alpha alone knows is set. -/
def setFlag : Call AddressOf :=
  .edit .alpha fun x => { x with featureFlag := true }

/-- A change plays the script out, and the same change after it finds nothing left of it. -/
theorem script_is_replayed_of_failing_hook :
    let once := perform scriptedKind (performAll scriptedKind scriptedAddress []) setFlag
    let twice := perform scriptedKind (performAll scriptedKind scriptedAddress [setFlag]) setFlag
    once.2 = .error (.hook .alphaToBeta "boom") ∧ once.1.state.checkFinished = .ok () ∧
      (∃ reason, twice.2 = .error (.outOfScript reason)) ∧
      twice.1.state.calls = [.alphaToStable, .alphaToBeta, .alphaToStable] := by
  have scripted : scriptedAddress.state = betaFails.foldl Script.expect Script.empty := rfl
  have none : hookHistory scriptedKind scriptedAddress [] = [] := rfl
  have first : hooksOf scriptedKind (performAll scriptedKind scriptedAddress []) setFlag =
      [⟨.alphaToStable, .passed⟩, ⟨.alphaToBeta, .failed "boom"⟩] := by decide +kernel
  have past : hookHistory scriptedKind scriptedAddress [setFlag] =
      [⟨.alphaToStable, .passed⟩, ⟨.alphaToBeta, .failed "boom"⟩] := by
    rw [hookHistory, history, history, List.append_nil]
    exact first
  have second : hooksOf scriptedKind (performAll scriptedKind scriptedAddress [setFlag]) setFlag =
      [⟨.alphaToStable, .outOfScript "Unexpected hook alpha->stable, no expectations left"⟩] := by
    decide +kernel
  have agrees : Script.Agrees betaFails
      [⟨.alphaToStable, .passed⟩, ⟨.alphaToBeta, .failed "boom"⟩] :=
    ((Script.Agrees.nil _).concat rfl rfl).concat rfl rfl
  obtain ⟨_, recorded, left, finished, agreed, _⟩ := script_is_replayed Address.kind.codec
    Address.kind.policy Address.kind.exclusions scripted [] setFlag
  obtain ⟨_, recordedAgain, _, _, _, lost⟩ := script_is_replayed Address.kind.codec
    Address.kind.policy Address.kind.exclusions scripted [setFlag] setFlag
  rw [← scriptedKind, none, first] at recorded agreed
  rw [← scriptedKind] at left finished
  rw [← scriptedKind, past, second] at recordedAgain lost
  refine ⟨(agreed agrees).2 _ _ (by decide), finished.2 ?_, ?_, recordedAgain⟩
  · rw [left, recorded]
    rfl
  · obtain ⟨_, _, reason, _, _, _, _, ends, _⟩ := lost agrees fun all => by
      -- The script has two expectations, and the third hook none to agree with.
      obtain ⟨_, turn, _⟩ := all 2 _ rfl
      simp [betaFails] at turn
    exact ⟨reason, ends⟩

end Resource

end Triversion
