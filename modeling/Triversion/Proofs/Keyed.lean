import Triversion.Keyed

/-! Laws of association lists: what is found after each change, and which changes keep the order. -/

namespace Triversion.Keyed

variable {κ α β : Type}

/-- Keys that ascend are pairwise different. -/
theorem Ascending.nodup [Ranked κ] {entries : List (κ × α)} (sorted : Ascending entries) :
    (entries.map (·.1)).Nodup := by
  -- No key precedes itself, so a key that precedes another differs from it.
  rw [List.Nodup, List.pairwise_map]
  refine sorted.imp ?_
  intro left right before same
  rw [same] at before
  exact Ranked.not_precedes_self _ before

/-- A key that finds nothing is no key of the list. -/
theorem get?_eq_none_iff [DecidableEq κ] {key : κ} {entries : List (κ × α)} :
    get? key entries = none ↔ key ∉ entries.map (·.1) := by
  -- The list is searched from the front, and the search passes every other key.
  induction entries with
  | nil => simp [get?]
  | cons entry rest ih =>
    obtain ⟨k, a⟩ := entry
    by_cases same : k = key
    · simp [get?, same]
    · simp [get?, same, Ne.symm same, ih]

/-- What is found is an entry of the list. -/
theorem mem_of_get? [DecidableEq κ] {key : κ} {a : α} {entries : List (κ × α)}
    (found : get? key entries = some a) : (key, a) ∈ entries := by
  -- The first entry with the key is what is found.
  induction entries with
  | nil => simp [get?] at found
  | cons entry rest ih =>
    obtain ⟨k, b⟩ := entry
    by_cases same : k = key
    · obtain rfl : b = a := by simpa [get?, same] using found
      simp [same]
    · have later : get? key rest = some a := by simpa [get?, same] using found
      exact List.mem_cons_of_mem _ (ih later)

/-- An entry is found under its key if no other entry has this key. -/
theorem get?_of_mem [DecidableEq κ] {key : κ} {a : α} {entries : List (κ × α)}
    (distinct : (entries.map (·.1)).Nodup) (member : (key, a) ∈ entries) :
    get? key entries = some a := by
  induction entries with
  | nil => simp at member
  | cons entry rest ih =>
    obtain ⟨k, b⟩ := entry
    obtain ⟨fresh, distinct⟩ := List.nodup_cons.1 distinct
    rcases List.mem_cons.1 member with same | later
    · cases same
      simp [get?]
    · -- The first entry has another key, or the key would stand in the list twice.
      have different : k ≠ key := by
        intro same
        subst same
        exact fresh (List.mem_map_of_mem (f := (·.1)) later)
      simp [get?, different, ih distinct later]

/-- Changing all values changes what is found and nothing else. -/
theorem get?_map [DecidableEq κ] (f : κ → α → β) (key : κ) (entries : List (κ × α)) :
    get? key (entries.map fun entry => (entry.1, f entry.1 entry.2)) =
      (get? key entries).map (f key) := by
  -- The keys stay, so the search ends at the same entry.
  induction entries with
  | nil => rfl
  | cons entry rest ih =>
    obtain ⟨k, a⟩ := entry
    by_cases same : k = key
    · simp [get?, same]
    · simp [get?, same, ih]

/-- Changing all values keeps the order of the keys. -/
theorem ascending_map [Ranked κ] {entries : List (κ × α)} (f : κ → α → β)
    (sorted : Ascending entries) :
    Ascending (entries.map fun entry => (entry.1, f entry.1 entry.2)) := by
  -- The keys alone are compared.
  rw [Ascending, List.pairwise_map]
  exact sorted

/-- A change under one key is found there. -/
theorem get?_modify_self [DecidableEq κ] (key : κ) (f : α → α) (entries : List (κ × α)) :
    get? key (modify key f entries) = (get? key entries).map f := by
  induction entries with
  | nil => rfl
  | cons entry rest ih =>
    obtain ⟨k, a⟩ := entry
    by_cases same : k = key
    · simp [modify, get?, same]
    · simp [modify, get?, same, ih]

/-- A change under one key is not found under any other. -/
theorem get?_modify_of_ne [DecidableEq κ] {key other : κ} (different : key ≠ other)
    (f : α → α) (entries : List (κ × α)) :
    get? other (modify key f entries) = get? other entries := by
  induction entries with
  | nil => rfl
  | cons entry rest ih =>
    obtain ⟨k, a⟩ := entry
    by_cases same : k = key
    · subst same
      simp [modify, get?, different]
    · simp [modify, get?, same, ih]

/-- A change under one key keeps all keys in their places. -/
theorem map_fst_modify [DecidableEq κ] (key : κ) (f : α → α) (entries : List (κ × α)) :
    (modify key f entries).map (·.1) = entries.map (·.1) := by
  induction entries with
  | nil => rfl
  | cons entry rest ih =>
    obtain ⟨k, a⟩ := entry
    by_cases same : k = key
    · simp [modify, same]
    · simp [modify, same, ih]

/-- Whether keys ascend can be read off the keys alone. -/
theorem ascending_iff_of_map_fst [Ranked κ] {entries : List (κ × α)} {others : List (κ × β)}
    (same : entries.map (·.1) = others.map (·.1)) : Ascending entries ↔ Ascending others := by
  -- The order of the entries is the order of their keys.
  have onKeys : ∀ {γ : Type} (list : List (κ × γ)),
      Ascending list ↔ (list.map (·.1)).Pairwise Ranked.Precedes := by
    intro γ list
    rw [Ascending, List.pairwise_map]
  rw [onKeys, onKeys, same]

theorem ascending_modify [Ranked κ] [DecidableEq κ] {entries : List (κ × α)} (key : κ)
    (f : α → α) (sorted : Ascending entries) : Ascending (modify key f entries) :=
  (ascending_iff_of_map_fst (map_fst_modify key f entries)).2 sorted

/-- Removing the entry of one key leaves what is found under all others. -/
theorem get?_erase_of_ne [DecidableEq κ] {key other : κ} (different : key ≠ other)
    (entries : List (κ × α)) : get? other (erase key entries) = get? other entries := by
  induction entries with
  | nil => rfl
  | cons entry rest ih =>
    obtain ⟨k, a⟩ := entry
    by_cases same : k = key
    · subst same
      simp [erase, get?, different]
    · simp [erase, get?, same, ih]

/-- What is removed from distinct keys is gone. -/
theorem get?_erase_self [DecidableEq κ] {key : κ} {entries : List (κ × α)}
    (distinct : (entries.map (·.1)).Nodup) : get? key (erase key entries) = none := by
  induction entries with
  | nil => rfl
  | cons entry rest ih =>
    obtain ⟨k, a⟩ := entry
    obtain ⟨fresh, distinct⟩ := List.nodup_cons.1 distinct
    by_cases here : k = key
    · rw [erase, if_pos here]
      exact get?_eq_none_iff.2 (here ▸ fresh)
    · simp [erase, get?, here, ih distinct]

/-- What is left after a removal stood in the list before, in the same order. -/
theorem sublist_erase [DecidableEq κ] (key : κ) (entries : List (κ × α)) :
    (erase key entries).Sublist entries := by
  -- All that is left out is the entry of the key.
  induction entries with
  | nil => exact .slnil
  | cons entry rest ih =>
    obtain ⟨k, a⟩ := entry
    by_cases same : k = key
    · simp [erase, same]
    · simpa [erase, same] using ih

theorem ascending_erase [Ranked κ] [DecidableEq κ] {entries : List (κ × α)} (key : κ)
    (sorted : Ascending entries) : Ascending (erase key entries) :=
  sorted.sublist (sublist_erase key entries)

/-- A key behind all others is stored at the end. -/
theorem put_of_last [Ranked κ] {key : κ} (a : α) {entries : List (κ × α)}
    (last : ∀ entry ∈ entries, Ranked.Precedes entry.1 key) :
    put key a entries = entries ++ [(key, a)] := by
  -- Every key on the way is smaller, so the search for a place passes them all.
  induction entries with
  | nil => rfl
  | cons entry rest ih =>
    obtain ⟨k, b⟩ := entry
    have passed : Ranked.rank key k = .gt := Ranked.rank_gt_iff.2 (last (k, b) (by simp))
    have later := ih fun entry member => last entry (List.mem_cons_of_mem _ member)
    simp [put, passed, later]

/-- Entries whose keys ascend already are stored as they are. -/
theorem ofList_of_ascending [Ranked κ] {entries : List (κ × α)} (sorted : Ascending entries) :
    ofList entries = entries := by
  -- Each key stands behind all keys that were stored before it.
  have grow : ∀ (entries stored : List (κ × α)), Ascending (stored ++ entries) →
      entries.foldl (fun stored entry => put entry.1 entry.2 stored) stored =
        stored ++ entries := by
    intro entries
    induction entries with
    | nil => intro stored _; simp
    | cons entry rest ih =>
      intro stored sorted
      have last : ∀ earlier ∈ stored, Ranked.Precedes earlier.1 entry.1 := by
        intro earlier member
        exact (List.pairwise_append.1 sorted).2.2 earlier member entry (by simp)
      rw [List.foldl_cons, put_of_last entry.2 last, ih _ (by simpa using sorted)]
      simp
  exact grow entries [] sorted

/-- Entries with distinct keys are found in front of whatever was stored before them. -/
theorem get?_ofList_append [Ranked κ] [DecidableEq κ] {later : List (κ × α)}
    (distinct : (later.map (·.1)).Nodup) (earlier : List (κ × α)) (key : κ) :
    get? key (ofList (earlier ++ later)) = (get? key later).or (get? key (ofList earlier)) := by
  rw [ofList, List.foldl_append]
  show get? key (later.foldl (fun stored entry => put entry.1 entry.2 stored) (ofList earlier)) = _
  -- What is stored later goes under other keys than what was stored before.
  generalize ofList earlier = stored
  induction later generalizing stored with
  | nil => rfl
  | cons entry rest ih =>
    obtain ⟨k, a⟩ := entry
    obtain ⟨fresh, distinct⟩ := List.nodup_cons.1 distinct
    rw [List.foldl_cons, ih distinct]
    by_cases same : k = key
    · -- No later entry stores another value under the key.
      subst same
      simp [get?, get?_eq_none_iff.2 fresh]
    · simp [get?, same, get?_put_of_ne same]

/-- Entries with distinct keys are found again after they are stored in order. -/
theorem get?_ofList [Ranked κ] [DecidableEq κ] {entries : List (κ × α)}
    (distinct : (entries.map (·.1)).Nodup) (key : κ) :
    get? key (ofList entries) = get? key entries := by
  simpa [ofList, get?] using get?_ofList_append distinct [] key

/-- What is stored one after another was given. -/
theorem mem_of_mem_ofList [Ranked κ] {entries : List (κ × α)} {entry : κ × α}
    (stored : entry ∈ ofList entries) : entry ∈ entries := by
  -- Each step stores one more entry, whatever was stored before.
  have grow : ∀ (entries stored : List (κ × α)),
      entry ∈ entries.foldl (fun stored entry => put entry.1 entry.2 stored) stored →
        entry ∈ stored ∨ entry ∈ entries := by
    intro entries
    induction entries with
    | nil => exact fun stored inside => .inl inside
    | cons first rest ih =>
      intro stored inside
      rcases ih _ inside with before | later
      · rcases mem_put before with rfl | older
        · exact .inr List.mem_cons_self
        · exact .inl older
      · exact .inr (List.mem_cons_of_mem _ later)
  exact (grow entries [] stored).resolve_left List.not_mem_nil

/-- Entries with distinct keys are all stored. -/
theorem mem_ofList [Ranked κ] [DecidableEq κ] {entries : List (κ × α)}
    (distinct : (entries.map (·.1)).Nodup) {entry : κ × α} :
    entry ∈ ofList entries ↔ entry ∈ entries := by
  refine ⟨mem_of_mem_ofList, fun given => ?_⟩
  have found : get? entry.1 (ofList entries) = some entry.2 := by
    rw [get?_ofList distinct]
    exact get?_of_mem distinct given
  exact mem_of_get? found

/-- Removing an entry that was put under a new key leaves the entries as they were. -/
theorem erase_put_of_fresh [Ranked κ] [DecidableEq κ] {key : κ} (a : α) {entries : List (κ × α)}
    (fresh : key ∉ entries.map (·.1)) : erase key (put key a entries) = entries := by
  -- The new entry stands in front of the first larger key, and no other entry has its key.
  induction entries with
  | nil => simp [put, erase]
  | cons entry rest ih =>
    obtain ⟨k, b⟩ := entry
    obtain ⟨different, fresh⟩ := not_or.1 (mt List.mem_cons.2 fresh)
    rw [put]
    split
    · simp [erase]
    · next same => exact absurd ((Ranked.rank_eq_iff key k).1 same) different
    · simp [erase, Ne.symm different, ih fresh]

/-- A key in front of all others is no key of the list. -/
theorem get?_of_precedes [Ranked κ] [DecidableEq κ] {key : κ} {entries : List (κ × α)}
    (first : ∀ entry ∈ entries, Ranked.Precedes key entry.1) : get? key entries = none := by
  refine get?_eq_none_iff.2 fun member => ?_
  obtain ⟨entry, listed, rfl⟩ := List.mem_map.1 member
  exact Ranked.not_precedes_self _ (first entry listed)

/-- The first key of ascending entries is found in no list of which it precedes the first key. -/
theorem Ascending.get?_of_precedes [Ranked κ] [DecidableEq κ] {key first : κ} {a : α}
    {rest : List (κ × α)} (sorted : Ascending ((first, a) :: rest))
    (before : Ranked.Precedes key first) : get? key ((first, a) :: rest) = none := by
  refine Keyed.get?_of_precedes (List.forall_mem_cons.2 ⟨before, fun entry member => ?_⟩)
  exact before.trans ((List.pairwise_cons.1 sorted).1 entry member)

/-- Entries with ascending keys are equal if every key finds the same in them. -/
theorem Ascending.ext [Ranked κ] [DecidableEq κ] {entries others : List (κ × α)}
    (sorted : Ascending entries) (sortedOthers : Ascending others)
    (same : ∀ key, get? key entries = get? key others) : entries = others := by
  induction entries generalizing others with
  | nil =>
    cases others with
    | nil => rfl
    | cons entry rest => simpa [get?] using same entry.1
  | cons entry rest ih =>
    obtain ⟨k, a⟩ := entry
    cases others with
    | nil => simpa [get?] using same k
    | cons other later =>
      obtain ⟨l, b⟩ := other
      -- The smaller of two different first keys would be found on one side only.
      rcases Ranked.trichotomy k l with before | rfl | before
      · have found := same k
        rw [sortedOthers.get?_of_precedes before] at found
        simp [get?] at found
      · obtain rfl : a = b := by simpa [get?] using same k
        congr 1
        obtain ⟨first, sorted⟩ := List.pairwise_cons.1 sorted
        obtain ⟨firstOther, sortedOthers⟩ := List.pairwise_cons.1 sortedOthers
        refine ih sorted sortedOthers fun key => ?_
        by_cases this : k = key
        · subst this
          rw [Keyed.get?_of_precedes first, Keyed.get?_of_precedes firstOther]
        · simpa [get?, this] using same key
      · have found := same l
        rw [sorted.get?_of_precedes before] at found
        simp [get?] at found

/-- Entries that are chosen by their keys are found under the keys that are chosen. -/
theorem get?_filter [DecidableEq κ] (chosen : κ → Bool) (key : κ) (entries : List (κ × α)) :
    get? key (entries.filter fun entry => chosen entry.1) =
      if chosen key then get? key entries else none := by
  induction entries with
  | nil => simp [get?]
  | cons entry rest ih =>
    obtain ⟨k, a⟩ := entry
    -- Entries with other keys change nothing, and those with the key are chosen alike.
    by_cases same : k = key
    · subst same
      cases stays : chosen k <;> simp [stays, get?, ih]
    · cases stays : chosen k <;> simp [stays, get?, ih, same]

/-- Entries that lack one of others at most become these when the one is stored. -/
theorem put_eq_of_agree [Ranked κ] [DecidableEq κ] {key : κ} {a : α} {entries others : List (κ × α)}
    (sorted : Ascending entries) (found : get? key entries = some a)
    (sortedOthers : Ascending others)
    (agree : ∀ other, key ≠ other → get? other others = get? other entries) :
    put key a others = entries := by
  refine (ascending_put sortedOthers).ext sorted fun other => ?_
  by_cases same : key = other
  · subst same
    rw [get?_put_self, found]
  · rw [get?_put_of_ne same, agree other same]

/-- Two changes under one key are one change. -/
theorem modify_modify [DecidableEq κ] (key : κ) (f g : α → α) (entries : List (κ × α)) :
    modify key g (modify key f entries) = modify key (g ∘ f) entries := by
  -- The second change meets the entry that the first one left.
  induction entries with
  | nil => rfl
  | cons entry rest ih =>
    obtain ⟨k, a⟩ := entry
    by_cases same : k = key
    · simp [modify, same]
    · simp [modify, same, ih]

/-- Changes that do the same to what is found under a key do the same to the entries. -/
theorem modify_congr [DecidableEq κ] {key : κ} {f g : α → α} {entries : List (κ × α)}
    (same : ∀ a, get? key entries = some a → f a = g a) :
    modify key f entries = modify key g entries := by
  induction entries with
  | nil => rfl
  | cons entry rest ih =>
    obtain ⟨k, a⟩ := entry
    by_cases here : k = key
    · simp [modify, here, same a (by simp [get?, here])]
    · simp only [modify, if_neg here]
      rw [ih fun a found => same a (by simp [get?, here, found])]

/-- A change that keeps every value keeps all entries. -/
@[simp] theorem modify_id [DecidableEq κ] (key : κ) (entries : List (κ × α)) :
    modify key id entries = entries := by
  induction entries with
  | nil => rfl
  | cons entry rest ih =>
    obtain ⟨k, a⟩ := entry
    by_cases here : k = key <;> simp [modify, here, ih]

/-- Changing what is found under a key stores the changed value under it. -/
theorem modify_eq_put [Ranked κ] [DecidableEq κ] {key : κ} (f : α → α) {a : α}
    {entries : List (κ × α)} (sorted : Ascending entries) (found : get? key entries = some a) :
    modify key f entries = put key (f a) entries := by
  -- Both sides ascend, so it is enough to look up every key in them.
  refine (ascending_modify key f sorted).ext (ascending_put sorted) fun other => ?_
  by_cases same : key = other
  · subst same
    rw [get?_modify_self, found, get?_put_self, Option.map_some]
  · rw [get?_modify_of_ne same, get?_put_of_ne same]

end Triversion.Keyed
