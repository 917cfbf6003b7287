import Triversion.Compute.Address
import Triversion.Proofs.Resource.Call

/-!
The exact state in which every call ends.

A call sets its own version and then delivers to the two others in turn. Whatever goes wrong,
the deliveries before it stand, and nothing behind it has been touched.
-/

namespace Triversion

/-- A destination brought up to date: what it holds now, and what its copy lost. -/
structure Delivery (R : Version → Type) where
  direction : Direction
  value : R direction.dest
  losses : List Loss

/-- A destination whose representation has been written, whether or not its slot followed. -/
structure Arrival (R : Version → Type) where
  direction : Direction
  value : R direction.dest

namespace Delivery

variable {R : Version → Type}

/-- The representation that a delivery writes. -/
def arrival (delivery : Delivery R) : Arrival R :=
  ⟨delivery.direction, delivery.value⟩

/-- The slot that a delivery fills. -/
def filled (delivery : Delivery R) : Direction × List Loss :=
  (delivery.direction, delivery.losses)

end Delivery

namespace Resource

variable {R : Version → Type} {σ : Type}

/--
Deliveries that all succeed, each copied from what the start holds.

The hooks alone pass something on from one delivery to the next, which is their state.
-/
inductive Delivers (kind : Kind R σ) (start : Resource R σ) :
    σ → List (Delivery R) → σ → Prop where
  | done (state : σ) : Delivers kind start state [] state
  | next {state passedOn last : σ} {direction : Direction} {copied value : R direction.dest}
      {rest : List (Delivery R)}
      (fits : (start.transfer kind direction).result = .ok copied)
      (bridged : start.bridge kind direction copied state = ⟨value, passedOn, .passed⟩)
      (others : Delivers kind start passedOn rest last) :
      Delivers kind start state
        (⟨direction, value, (start.transfer kind direction).losses⟩ :: rest) last

/-- A resource that differs from another in some representations and some slots alone. -/
structure ChangedIn (start final : Resource R σ) (arrivals : List (Arrival R))
    (fills : List (Direction × List Loss)) : Prop where
  id : final.id = start.id
  arrived : ∀ arrival ∈ arrivals, final.values.get arrival.direction.dest = arrival.value
  filled : ∀ fill ∈ fills, final.slots fill.1 = fill.2
  otherValues : ∀ version, (∀ arrival ∈ arrivals, arrival.direction.dest ≠ version) →
    final.values.get version = start.values.get version
  otherSlots : ∀ direction, (∀ fill ∈ fills, fill.1 ≠ direction) →
    final.slots direction = start.slots direction

namespace ChangedIn

variable {start final : Resource R σ} {arrivals : List (Arrival R)}
  {fills : List (Direction × List Loss)}

/-- Nothing has changed yet. -/
theorem refl (resource : Resource R σ) : ChangedIn resource resource [] [] := by
  constructor <;> simp

/-- The hooks' state is no representation and no slot. -/
theorem withState (changed : ChangedIn start final arrivals fills) (state : σ) :
    ChangedIn start { final with state := state } arrivals fills :=
  ⟨changed.id, changed.arrived, changed.filled, changed.otherValues, changed.otherSlots⟩

/-- One more representation is written, in a version that no earlier one went to. -/
theorem arrive (changed : ChangedIn start final arrivals fills) {direction : Direction}
    (fresh : ∀ arrival ∈ arrivals, arrival.direction.dest ≠ direction.dest)
    (value : R direction.dest) :
    ChangedIn start (final.withValue direction.dest value) (arrivals ++ [⟨direction, value⟩])
      fills := by
  refine ⟨changed.id, ?_, changed.filled, ?_, changed.otherSlots⟩
  · -- What has arrived before is in another version, so the new value does not cover it.
    intro arrival member
    rcases List.mem_append.1 member with before | now
    · have different := Ne.symm (fresh arrival before)
      exact (Triple.get_set_of_ne _ different _).trans (changed.arrived arrival before)
    · obtain rfl := List.mem_singleton.1 now
      exact Triple.get_set_self _ _ _
  · intro version untouched
    have different : direction.dest ≠ version := untouched ⟨direction, value⟩ (by simp)
    refine (Triple.get_set_of_ne _ different _).trans (changed.otherValues version ?_)
    exact fun arrival before => untouched arrival (List.mem_append_left _ before)

/-- One more slot is filled, which was not filled before. -/
theorem fill (changed : ChangedIn start final arrivals fills) {direction : Direction}
    (fresh : ∀ fill ∈ fills, fill.1 ≠ direction) (losses : List Loss) :
    ChangedIn start { final with slots := fillSlot final.slots direction losses } arrivals
      (fills ++ [(direction, losses)]) := by
  refine ⟨changed.id, changed.arrived, ?_, changed.otherValues, ?_⟩
  · -- Each direction has a slot of its own.
    intro fill member
    rcases List.mem_append.1 member with before | now
    · simpa [fillSlot, fresh fill before] using changed.filled fill before
    · obtain rfl := List.mem_singleton.1 now
      simp [fillSlot]
  · intro other untouched
    have different : direction ≠ other := untouched (direction, losses) (by simp)
    have kept := changed.otherSlots other fun fill before =>
      untouched fill (List.mem_append_left _ before)
    simpa [fillSlot, Ne.symm different] using kept

end ChangedIn

/-- How a propagation out of a version ends, in every case that can arise. -/
structure PropagatesFrom (kind : Kind R σ) (start : Resource R σ) (version : Version)
    (ending : Resource R σ × Except Fault Unit) : Prop where
  /-- Both deliveries succeed. -/
  delivered : ∀ deliveries state, Delivers kind start start.state deliveries state →
    deliveries.map Delivery.direction = Direction.outbound version →
    ending.2 = .ok () ∧ ending.1.state = state ∧
      ChangedIn start ending.1 (deliveries.map Delivery.arrival) (deliveries.map Delivery.filled)
  /-- A copy fails: its destination, the later ones and their slots are as they were. -/
  copyFailed : ∀ deliveries state direction later fault,
    Delivers kind start start.state deliveries state →
    Direction.outbound version = deliveries.map Delivery.direction ++ direction :: later →
    (start.transfer kind direction).result = .error fault →
    ending.2 = .error (.copy fault) ∧ ending.1.state = state ∧
      ChangedIn start ending.1 (deliveries.map Delivery.arrival) (deliveries.map Delivery.filled)
  /-- A hook fails: its destination stays as the hook left it, and its slot as it was. -/
  hookFailed : ∀ deliveries state direction later copied value next reason,
    Delivers kind start start.state deliveries state →
    Direction.outbound version = deliveries.map Delivery.direction ++ direction :: later →
    (start.transfer kind direction).result = .ok copied →
    start.bridge kind direction copied state = ⟨value, next, .failed reason⟩ →
    ending.2 = .error (.hook direction reason) ∧ ending.1.state = next ∧
      ChangedIn start ending.1 (deliveries.map Delivery.arrival ++ [⟨direction, value⟩])
        (deliveries.map Delivery.filled)
  /-- A hook is called out of turn, which leaves what a failed hook leaves. -/
  hookOutOfScript : ∀ deliveries state direction later copied value next reason,
    Delivers kind start start.state deliveries state →
    Direction.outbound version = deliveries.map Delivery.direction ++ direction :: later →
    (start.transfer kind direction).result = .ok copied →
    start.bridge kind direction copied state = ⟨value, next, .outOfScript reason⟩ →
    ending.2 = .error (.outOfScript reason) ∧ ending.1.state = next ∧
      ChangedIn start ending.1 (deliveries.map Delivery.arrival ++ [⟨direction, value⟩])
        (deliveries.map Delivery.filled)
  /-- One of these cases always arises. -/
  covered : ∃ deliveries state, Delivers kind start start.state deliveries state ∧
    (deliveries.map Delivery.direction = Direction.outbound version ∨
      ∃ direction later,
        Direction.outbound version = deliveries.map Delivery.direction ++ direction :: later ∧
        ((∃ fault, (start.transfer kind direction).result = .error fault) ∨
          ∃ copied, (start.transfer kind direction).result = .ok copied ∧
            (start.bridge kind direction copied state).verdict ≠ .passed))
  /-- The version itself keeps what it was set to. -/
  source : ending.1.values.get version = start.values.get version
  /-- No slot of another source is touched. -/
  slots : ∀ direction, direction.source ≠ version →
    ending.1.slots direction = start.slots direction

section Progress

variable {kind : Kind R σ} {start current : Resource R σ} {version : Version}

/-- The direction that comes next starts where all do, and ends where none before it ended. -/
theorem fresh_of_listed {earlier : List (Delivery R)} {direction : Direction}
    {later : List Direction}
    (listed : Direction.outbound version = earlier.map Delivery.direction ++ direction :: later) :
    direction.source = version ∧
      (∀ arrival ∈ earlier.map Delivery.arrival, arrival.direction.dest ≠ version) ∧
      (∀ arrival ∈ earlier.map Delivery.arrival, arrival.direction.dest ≠ direction.dest) ∧
      ∀ fill ∈ earlier.map Delivery.filled, fill.1 ≠ direction := by
  -- The directions out of a version end in different versions, so the list splits them for good.
  have leaves : ∀ d ∈ earlier.map Delivery.direction ++ direction :: later, d.source = version :=
    fun d member => Direction.mem_outbound_iff.1 (listed ▸ member)
  have distinct := Direction.outbound_dests_nodup version
  rw [listed, List.map_append, List.map_cons, List.nodup_append] at distinct
  have apart : ∀ delivery ∈ earlier, delivery.direction.dest ≠ direction.dest := by
    intro delivery member
    exact distinct.2.2 _ (List.mem_map_of_mem (List.mem_map_of_mem member)) _ (by simp)
  refine ⟨leaves direction (by simp), ?_, ?_, ?_⟩
  · intro arrival member
    obtain ⟨delivery, inside, rfl⟩ := List.mem_map.1 member
    have source := leaves delivery.direction
      (List.mem_append_left _ (List.mem_map_of_mem inside))
    exact source ▸ Direction.dest_ne_source delivery.direction
  · intro arrival member
    obtain ⟨delivery, inside, rfl⟩ := List.mem_map.1 member
    exact apart delivery inside
  · intro fill member same
    obtain ⟨delivery, inside, rfl⟩ := List.mem_map.1 member
    exact apart delivery inside (congrArg Direction.dest same)

/-- Deliveries to other destinations do not change what a copy and its hook work on. -/
theorem transfer_and_bridge_of_changedIn (kind : Kind R σ) {earlier : List (Delivery R)}
    {direction : Direction} {later : List Direction} {fills : List (Direction × List Loss)}
    (changed : ChangedIn start current (earlier.map Delivery.arrival) fills)
    (listed : Direction.outbound version = earlier.map Delivery.direction ++ direction :: later) :
    current.transfer kind direction = start.transfer kind direction ∧
      current.bridge kind direction = start.bridge kind direction := by
  -- Both look at the source and the destination alone, and neither has been written.
  obtain ⟨leaves, notSource, notDest, _⟩ := fresh_of_listed listed
  have source := changed.otherValues direction.source (leaves ▸ notSource)
  have dest := changed.otherValues direction.dest notDest
  constructor
  · simp only [transfer, source, dest]
  · funext copied state
    simp only [bridge, source]

/-- Successful deliveries carry a propagation on to the directions behind them. -/
theorem conveyAll_of_delivers {state last : σ} {deliveries : List (Delivery R)}
    (delivers : Delivers kind start state deliveries last) {rest : List Direction} :
    ∀ (earlier : List (Delivery R)) (current : Resource R σ),
      ChangedIn start current (earlier.map Delivery.arrival) (earlier.map Delivery.filled) →
      current.state = state →
      Direction.outbound version =
        earlier.map Delivery.direction ++ (deliveries.map Delivery.direction ++ rest) →
      ∃ next, conveyAll kind current (deliveries.map Delivery.direction ++ rest) =
          conveyAll kind next rest ∧ next.state = last ∧
        ChangedIn start next ((earlier ++ deliveries).map Delivery.arrival)
          ((earlier ++ deliveries).map Delivery.filled) := by
  -- Each delivery is copied from what the start holds, so the earlier ones can be set apart.
  induction delivers with
  | done state =>
    intro earlier current changed inState _
    exact ⟨current, rfl, inState, by simpa using changed⟩
  | @next state passedOn last direction copied value others fits bridged _ ih =>
    intro earlier current changed inState listed
    obtain ⟨_, _, notDest, notFilled⟩ := fresh_of_listed listed
    obtain ⟨sameCopy, sameHook⟩ := transfer_and_bridge_of_changedIn kind changed listed
    have conveyed := convey_of_passed (sameCopy ▸ fits)
      (by rw [inState, sameHook]; exact bridged)
    rw [sameCopy] at conveyed
    -- The delivery is added to the earlier ones, and the others go on from there.
    have proceeds := ((changed.arrive notDest value).fill notFilled
      (start.transfer kind direction).losses).withState passedOn
    obtain ⟨next, runs, ends, reached⟩ := ih
      (earlier ++ [⟨direction, value, (start.transfer kind direction).losses⟩])
      { current.withValue direction.dest value with
          slots := fillSlot current.slots direction (start.transfer kind direction).losses
          state := passedOn }
      (by simpa [Delivery.arrival, Delivery.filled] using proceeds) rfl
      (by simpa using listed)
    refine ⟨next, ?_, ends, by simpa using reached⟩
    rw [← runs]
    simp only [List.map_cons, List.cons_append, conveyAll, conveyed]

/-- Deliveries go on until all are made, or until a copy or a hook does not succeed. -/
theorem delivers_until (kind : Kind R σ) (start : Resource R σ) (directions : List Direction)
    (state : σ) :
    ∃ deliveries last, Delivers kind start state deliveries last ∧
      (deliveries.map Delivery.direction = directions ∨
        ∃ direction later,
          directions = deliveries.map Delivery.direction ++ direction :: later ∧
          ((∃ fault, (start.transfer kind direction).result = .error fault) ∨
            ∃ copied, (start.transfer kind direction).result = .ok copied ∧
              (start.bridge kind direction copied last).verdict ≠ .passed)) := by
  -- At each direction the copy fails, or its hook does, or the delivery succeeds.
  induction directions generalizing state with
  | nil => exact ⟨[], state, .done state, .inl rfl⟩
  | cons direction rest ih =>
    cases fits : (start.transfer kind direction).result with
    | error fault =>
      exact ⟨[], state, .done state, .inr ⟨direction, rest, rfl, .inl ⟨fault, fits⟩⟩⟩
    | ok copied =>
      cases bridged : start.bridge kind direction copied state with
      | mk value passedOn verdict =>
        by_cases passed : verdict = .passed
        · subst passed
          obtain ⟨deliveries, last, delivers, ends⟩ := ih passedOn
          refine ⟨_, last, .next fits bridged delivers, ?_⟩
          rcases ends with all | ⟨stop, later, listed, breaks⟩
          · exact .inl (by simp [all])
          · exact .inr ⟨stop, later, by simp [listed], breaks⟩
        · refine ⟨[], state, .done state, .inr ⟨direction, rest, rfl, .inr ⟨copied, fits, ?_⟩⟩⟩
          rw [bridged]
          exact passed

/-- A propagation reaches the state behind its first deliveries before it does anything else. -/
theorem conveyAll_reaches {state : σ} {deliveries : List (Delivery R)} {rest : List Direction}
    (delivers : Delivers kind start start.state deliveries state)
    (listed : Direction.outbound version = deliveries.map Delivery.direction ++ rest) :
    ∃ next, conveyAll kind start (Direction.outbound version) = conveyAll kind next rest ∧
      next.state = state ∧
      ChangedIn start next (deliveries.map Delivery.arrival) (deliveries.map Delivery.filled) := by
  obtain ⟨next, runs, ends, changed⟩ :=
    conveyAll_of_delivers delivers [] start (.refl start) rfl (by simpa using listed)
  exact ⟨next, listed ▸ runs, ends, by simpa using changed⟩

/-- A hook that does not pass ends the propagation with its destination written and no slot more. -/
theorem conveyAll_of_broken {state next : σ} {deliveries : List (Delivery R)}
    {direction : Direction} {later : List Direction} {copied value : R direction.dest}
    {verdict : Verdict} {fault : Fault}
    (delivers : Delivers kind start start.state deliveries state)
    (listed : Direction.outbound version = deliveries.map Delivery.direction ++ direction :: later)
    (fits : (start.transfer kind direction).result = .ok copied)
    (bridged : start.bridge kind direction copied state = ⟨value, next, verdict⟩)
    (broken : verdict.fault? direction = some fault) :
    let ending := conveyAll kind start (Direction.outbound version)
    ending.2 = .error fault ∧ ending.1.state = next ∧
      ChangedIn start ending.1 (deliveries.map Delivery.arrival ++ [⟨direction, value⟩])
        (deliveries.map Delivery.filled) := by
  -- The propagation reaches this hook with all earlier destinations up to date.
  obtain ⟨reached, runs, inState, changed⟩ := conveyAll_reaches delivers listed
  obtain ⟨_, _, notDest, _⟩ := fresh_of_listed listed
  obtain ⟨sameCopy, sameHook⟩ := transfer_and_bridge_of_changedIn kind changed listed
  have conveyed := convey_of_broken (sameCopy ▸ fits)
    (by rw [inState, sameHook]; exact bridged) broken
  simp only [runs, conveyAll, conveyed, true_and]
  exact (changed.arrive notDest value).withState next

/-- Copying a version into the two others ends as described, whatever goes wrong. -/
theorem conveyAll_propagates (kind : Kind R σ) (start : Resource R σ) (version : Version) :
    PropagatesFrom kind start version (conveyAll kind start (Direction.outbound version)) where
  delivered deliveries state delivers all := by
    have listed : Direction.outbound version = deliveries.map Delivery.direction ++ [] := by
      rw [List.append_nil, all]
    obtain ⟨reached, runs, inState, changed⟩ := conveyAll_reaches delivers listed
    rw [runs]
    exact ⟨rfl, inState, changed⟩
  copyFailed deliveries state direction later fault delivers listed failed := by
    obtain ⟨reached, runs, inState, changed⟩ := conveyAll_reaches delivers listed
    have sameCopy := (transfer_and_bridge_of_changedIn kind changed listed).1
    simp only [runs, conveyAll, convey_of_copyFault (sameCopy ▸ failed), true_and]
    exact ⟨inState, changed⟩
  hookFailed deliveries state direction later copied value next reason delivers listed fits
      bridged :=
    conveyAll_of_broken delivers listed fits bridged rfl
  hookOutOfScript deliveries state direction later copied value next reason delivers listed fits
      bridged :=
    conveyAll_of_broken delivers listed fits bridged rfl
  covered := by
    obtain ⟨deliveries, last, delivers, ends⟩ :=
      delivers_until kind start (Direction.outbound version) start.state
    exact ⟨deliveries, last, delivers, ends⟩
  source := (conveyAll_frame kind start fun _ => Direction.mem_outbound_iff.1).1
  slots := (conveyAll_frame kind start fun _ => Direction.mem_outbound_iff.1).2

/-- What a delivery among successful ones has come from. -/
theorem Delivers.of_mem {state last : σ} {deliveries : List (Delivery R)}
    (delivers : Delivers kind start state deliveries last) {delivery : Delivery R}
    (member : delivery ∈ deliveries) :
    delivery.losses = (start.transfer kind delivery.direction).losses ∧
      ∃ copied before after,
        (start.transfer kind delivery.direction).result = .ok copied ∧
        start.bridge kind delivery.direction copied before = ⟨delivery.value, after, .passed⟩ := by
  induction delivers with
  | done state => simp at member
  | @next before after last direction copied value others fits bridged _ ih =>
    rcases List.mem_cons.1 member with rfl | later
    · exact ⟨rfl, copied, before, after, fits, bridged⟩
    · exact ih later

/-- A propagation that succeeds has delivered to every destination. -/
theorem conveyAll_of_ok
    (success : (conveyAll kind start (Direction.outbound version)).2 = .ok ())
    {direction : Direction} (leaves : direction.source = version) :
    let ending := (conveyAll kind start (Direction.outbound version)).1
    ending.slots direction = (start.transfer kind direction).losses ∧
      ∃ copied before after, (start.transfer kind direction).result = .ok copied ∧
        start.bridge kind direction copied before =
          ⟨ending.values.get direction.dest, after, .passed⟩ := by
  have propagates := conveyAll_propagates kind start version
  obtain ⟨deliveries, state, delivers, all | ⟨stop, later, listed, breaks⟩⟩ := propagates.covered
  · obtain ⟨_, _, changed⟩ := propagates.delivered deliveries state delivers all
    have listed : direction ∈ deliveries.map Delivery.direction :=
      all ▸ Direction.mem_outbound_iff.2 leaves
    obtain ⟨delivery, member, rfl⟩ := List.mem_map.1 listed
    obtain ⟨losses, source⟩ := delivers.of_mem member
    have arrived : (conveyAll kind start (Direction.outbound version)).1.values.get
        delivery.direction.dest = delivery.value :=
      changed.arrived _ (List.mem_map_of_mem member)
    have filled := changed.filled _ (List.mem_map_of_mem member)
    refine ⟨filled.trans losses, ?_⟩
    rw [arrived]
    exact source
  · -- Whatever stops a propagation is reported as its failure.
    rcases breaks with ⟨fault, failed⟩ | ⟨copied, fits, broken⟩
    · have := (propagates.copyFailed deliveries state stop later fault delivers listed failed).1
      simp [success] at this
    · cases bridged : start.bridge kind stop copied state with
      | mk value next verdict =>
        cases verdict with
        | passed => simp [bridged] at broken
        | failed reason =>
          have := (propagates.hookFailed deliveries state stop later copied value next reason
            delivers listed fits bridged).1
          simp [success] at this
        | outOfScript reason =>
          have := (propagates.hookOutOfScript deliveries state stop later copied value next reason
            delivers listed fits bridged).1
          simp [success] at this

end Progress

/--
Every call ends in exactly one state, whether it succeeds or fails.

A replacement whose copy within the version fails changes nothing, and a change that breaks the
policy changes its own version alone; neither asks any hook. All other calls end like the
propagation of the new value, and no call touches a slot of another source than its own.
-/
theorem calls_end_exactly (kind : Kind R σ) (resource : Resource R σ) (version : Version) :
    (∀ x fault, (resource.ownCopy kind version x).result = .error fault →
      ∀ hook, replace { kind with hook := hook } resource version x =
        (resource, .error (.copy fault))) ∧
    (∀ change fault,
      (kind.policy version).check version (kind.codec version)
        (change (resource.values.get version)) = .error fault →
      ∀ hook, edit { kind with hook := hook } resource version change =
        (resource.withValue version (change (resource.values.get version)), .error fault)) ∧
    (∀ x copied, (resource.ownCopy kind version x).result = .ok copied →
      PropagatesFrom kind (resource.withValue version copied) version
        (replace kind resource version x)) ∧
    (∀ change,
      (kind.policy version).check version (kind.codec version)
        (change (resource.values.get version)) = .ok () →
      PropagatesFrom kind (resource.withValue version (change (resource.values.get version)))
        version (edit kind resource version change)) ∧
    ∀ call : Call R, call.version? = some version →
      ∀ direction, direction.source ≠ version →
        (perform kind resource call).1.slots direction = resource.slots direction := by
  refine ⟨?_, ?_, ?_, ?_, ?_⟩
  · -- The hook may be any, since it is never asked.
    intro x fault failed hook
    unfold ownCopy at failed
    simp only [replace, failed]
  · intro change fault broken hook
    simp only [edit, broken, withValue]
  · intro x copied fits
    have entered : entered? kind resource (.replace version x) =
        some (version, resource.withValue version copied) := by
      simp only [entered?, fits]
    rw [show replace kind resource version x = _ from (entered?_cases entered).2.2]
    exact conveyAll_propagates kind _ version
  · intro change passed
    have entered : entered? kind resource (.edit version change) =
        some (version, resource.withValue version (change (resource.values.get version))) := by
      simp only [entered?, passed]
    rw [show edit kind resource version change = _ from (entered?_cases entered).2.2]
    exact conveyAll_propagates kind _ version
  · -- A call that copies starts by setting its own version, which fills no slot.
    intro call names direction foreign
    cases entered : entered? kind resource call with
    | none => rw [slots_perform_of_not_entered entered]
    | some start =>
      obtain ⟨source, start⟩ := start
      obtain ⟨named, ⟨x, rfl⟩, performed⟩ := entered?_cases entered
      obtain rfl : version = source := Option.some.inj (names.symm.trans named)
      rw [performed, (conveyAll_propagates kind _ version).slots _ foreign, slots_withValue]

/-- An address in which nothing is set, in all versions. -/
def unsetAddress : Resource AddressOf Unit :=
  ⟨Address.globalId "p" "a", ⟨.initial, .initial, .initial⟩, fun _ => [], ()⟩

/-- A change to a purpose that does not exist. -/
def withUnknownPurpose (x : AlphaAddress) : AlphaAddress :=
  { x with addressPurpose := "TELEPORT" }

/-- The hook into stable fails on an unknown purpose, and beta is never reached. -/
theorem calls_end_exactly_of_failed_hook :
    let start := unsetAddress.withValue .alpha (withUnknownPurpose .initial)
    let ending := edit Address.kind unsetAddress .alpha withUnknownPurpose
    ending.2 = .error (.hook .alphaToStable (Address.unknownPurpose "TELEPORT")) ∧
      ChangedIn start ending.1 [⟨.alphaToStable, .initial⟩] [] := by
  -- The copy itself goes through, since the purpose is not matched by name.
  have copied : ((unsetAddress.withValue .alpha (withUnknownPurpose .initial)).transfer
      Address.kind .alphaToStable).result = .ok .initial := by rfl
  obtain ⟨_, _, _, edits, _⟩ := calls_end_exactly Address.kind unsetAddress .alpha
  have ends := (edits withUnknownPurpose (by rfl)).hookFailed [] () .alphaToStable [.alphaToBeta]
    .initial .initial () (Address.unknownPurpose "TELEPORT") (.done ()) rfl copied rfl
  exact ⟨ends.1, ends.2.2⟩

end Resource

end Triversion
