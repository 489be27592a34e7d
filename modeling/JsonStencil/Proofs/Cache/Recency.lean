import JsonStencil.Proofs.Cache.Transparency
import Mathlib.Data.Finset.Card

/-!
# What a cache keeps

The log of a cache holds each request with its answer. Replaying the log gives the keys whose
executables were returned since the cache was cleared, the latest in front, and a cache keeps the
front of this list that its capacity allows. So a request is answered from the cache just when its
key was returned before and fewer than capacity distinct other keys were returned since.
-/

namespace JsonStencil

namespace Cache

variable {store : LruStore CacheKey Executable}

abbrev Event := Request × Answer

/-- The requests to a cache in turn, each with its answer. -/
def log (cache : Cache store) (requests : List Request) : List Event :=
  requests.zip (cache.run requests).1

def Request.isGet : Request → Bool
  | .get _ _ => true
  | _ => false

namespace Event

def isClear : Event → Bool
  | (.clear, _) => true
  | _ => false

/-- The key whose executable was returned. -/
def returned? : Event → Option CacheKey
  | (.get o template, .compiled (.ok _)) => some (key o template)
  | _ => none

/-- The distinct keys that were returned in some events. -/
def returnedKeys (events : List Event) : Finset CacheKey := (events.filterMap returned?).toFinset

end Event

/-- A key was returned since the last clearing, and fewer than `n` distinct other keys since it was
returned last. -/
def RecentlyReturned (n : Nat) (k : CacheKey) (events : List Event) : Prop :=
  ∃ before event since, events = before ++ event :: since ∧ event.returned? = some k ∧
    (∀ later ∈ since, later.isClear = false ∧ later.returned? ≠ some k) ∧
    (Event.returnedKeys since).card < n

section Recency

variable {k : CacheKey} {keys : List CacheKey} {event : Event} {events since : List Event}

def note (keys : List CacheKey) (event : Event) : List CacheKey :=
  match event.returned? with
  | some k => k :: keys.filter (· ≠ k)
  | none => if event.isClear then [] else keys

/-- The keys that were returned since the last clearing, the latest in front. -/
def recency (events : List Event) : List CacheKey := events.foldl note []

theorem note_of_returned (h : event.returned? = some k) :
    note keys event = k :: keys.filter (· ≠ k) := by
  rw [note, h]

theorem note_of_not_returned (h : event.returned? = none) (hclear : event.isClear = false) :
    note keys event = keys := by
  rw [note, h, hclear]
  rfl

theorem recency_concat (events : List Event) (event : Event) :
    recency (events ++ [event]) = note (recency events) event := by
  rw [recency, List.foldl_append]
  rfl

theorem nodup_note (h : keys.Nodup) : (note keys event).Nodup := by
  unfold note
  split
  · refine List.nodup_cons.2 ⟨fun hmem => ?_, h.filter _⟩
    simpa using (List.mem_filter.1 hmem).2
  · split
    · exact List.nodup_nil
    · exact h

theorem nodup_recency (events : List Event) : (recency events).Nodup := by
  induction events using List.reverseRecOn with
  | nil => exact List.nodup_nil
  | append_singleton events event ih =>
    rw [recency_concat]
    exact nodup_note ih

theorem returnedKeys_concat_of_returned (h : event.returned? = some k) :
    Event.returnedKeys (since ++ [event]) = insert k (Event.returnedKeys since) := by
  ext x
  simp [Event.returnedKeys, h]

theorem returnedKeys_concat_of_not_returned (h : event.returned? = none) :
    Event.returnedKeys (since ++ [event]) = Event.returnedKeys since := by
  simp [Event.returnedKeys, h]

/-- What is returned later comes in front of a key. -/
theorem foldl_note_cons (k : CacheKey) (keys : List CacheKey)
    (h : ∀ later ∈ since, later.isClear = false ∧ later.returned? ≠ some k) :
    ∃ front back, since.foldl note (k :: keys) = front ++ k :: back ∧ front.Nodup ∧
      front.toFinset = Event.returnedKeys since := by
  induction since using List.reverseRecOn with
  | nil => exact ⟨[], keys, rfl, List.nodup_nil, rfl⟩
  | append_singleton since event ih =>
    obtain ⟨hsince, hevent⟩ := List.forall_mem_append.1 h
    obtain ⟨hclear, hother⟩ := hevent event List.mem_cons_self
    obtain ⟨front, back, hfold, hnodup, hfront⟩ := ih hsince
    have hstep : (since ++ [event]).foldl note (k :: keys) = note (front ++ k :: back) event := by
      rw [List.foldl_append, hfold]
      rfl
    cases hreturned : event.returned? with
    | none =>
      refine ⟨front, back, ?_, hnodup, ?_⟩
      · rw [hstep, note_of_not_returned hreturned hclear]
      · rw [hfront, returnedKeys_concat_of_not_returned hreturned]
    | some l =>
      have hne : k ≠ l := fun heq => hother (heq ▸ hreturned)
      refine ⟨l :: front.filter (· ≠ l), back.filter (· ≠ l), ?_, ?_, ?_⟩
      · rw [hstep, note_of_returned hreturned, List.filter_append,
          List.filter_cons_of_pos (by simpa using hne)]
        rfl
      · exact List.nodup_cons.2 ⟨by simp, hnodup.filter _⟩
      · rw [returnedKeys_concat_of_returned hreturned, ← hfront]
        ext x
        by_cases hx : x = l <;> simp [hx]

theorem exists_returned_of_mem_recency (h : k ∈ recency events) :
    ∃ before event since, events = before ++ event :: since ∧ event.returned? = some k ∧
      ∀ later ∈ since, later.isClear = false ∧ later.returned? ≠ some k := by
  induction events using List.reverseRecOn with
  | nil => cases h
  | append_singleton events event ih =>
    rw [recency_concat] at h
    -- the event itself returned the key last, or it left the key in its place
    by_cases hk : event.returned? = some k
    · exact ⟨events, event, [], rfl, hk, nofun⟩
    have hkept : event.isClear = false ∧ k ∈ recency events := by
      unfold note at h
      split at h
      next l hl =>
        have hne : k ≠ l := fun heq => hk (heq ▸ hl)
        refine ⟨?_, ?_⟩
        · unfold Event.returned? at hl
          split at hl
          · rfl
          · cases hl
        · exact (List.mem_filter.1 ((List.mem_cons.1 h).resolve_left hne)).1
      next =>
        split at h
        · cases h
        next hclear => exact ⟨by simpa using hclear, h⟩
    obtain ⟨before, last, since, rfl, hlast, hsince⟩ := ih hkept.2
    refine ⟨before, last, since ++ [event], by simp, hlast, ?_⟩
    intro later hlater
    rcases List.mem_append.1 hlater with hlater | hlater
    · exact hsince later hlater
    · rw [List.mem_singleton.1 hlater]
      exact ⟨hkept.1, hk⟩

/-- The place of a key in the list is the number of keys that were returned since. -/
theorem mem_take_recency_iff {n : Nat} :
    k ∈ (recency events).take n ↔ RecentlyReturned n k events := by
  have hplace (before : List Event) (event : Event) (since : List Event)
      (hevent : event.returned? = some k)
      (hsince : ∀ later ∈ since, later.isClear = false ∧ later.returned? ≠ some k) :
      k ∈ (recency (before ++ event :: since)).take n ↔ (Event.returnedKeys since).card < n := by
    obtain ⟨front, back, hfold, hnodup, hfront⟩ :=
      foldl_note_cons k ((recency before).filter (· ≠ k)) hsince
    have hrecency : recency (before ++ event :: since) = front ++ k :: back := by
      rw [recency, List.foldl_append, List.foldl_cons, note_of_returned hevent]
      exact hfold
    have hcard : (Event.returnedKeys since).card = front.length := by
      rw [← hfront, List.toFinset_card_of_nodup hnodup]
    have hnot : k ∉ front := by
      rw [← List.mem_toFinset, hfront]
      simp only [Event.returnedKeys, List.mem_toFinset, List.mem_filterMap, not_exists, not_and]
      exact fun later hlater => (hsince later hlater).2
    rw [hrecency, hcard, List.take_append, List.mem_append]
    constructor
    · rintro (hmem | hmem)
      · exact (hnot (List.mem_of_mem_take hmem)).elim
      · by_contra hle
        rw [Nat.sub_eq_zero_of_le (Nat.le_of_not_lt hle)] at hmem
        cases hmem
    · intro hlt
      obtain ⟨m, hm⟩ := Nat.exists_eq_succ_of_ne_zero (Nat.sub_ne_zero_of_lt hlt)
      rw [hm]
      exact .inr List.mem_cons_self
  constructor
  · intro h
    obtain ⟨before, event, since, rfl, hevent, hsince⟩ :=
      exists_returned_of_mem_recency (List.mem_of_mem_take h)
    exact ⟨before, event, since, rfl, hevent, hsince, (hplace _ _ _ hevent hsince).1 h⟩
  · rintro ⟨before, event, since, rfl, hevent, hsince, hcard⟩
    exact (hplace _ _ _ hevent hsince).2 hcard

end Recency

/-- Taking a key out of the part that is kept takes it out of the whole list. -/
theorem take_filter_take {k : CacheKey} {keys : List CacheKey} (h : keys.Nodup) (n : Nat) :
    ((keys.take (n + 1)).filter (· ≠ k)).take n = (keys.filter (· ≠ k)).take n := by
  induction keys generalizing n with
  | nil => rfl
  | cons x keys ih =>
    obtain ⟨hx, hkeys⟩ := List.nodup_cons.1 h
    by_cases hxk : x = k
    · subst hxk
      have hall : ∀ l ∈ keys, decide (l ≠ x) = true := by
        intro l hl
        simpa using fun heq : l = x => hx (heq ▸ hl)
      rw [List.take_succ_cons, List.filter_cons_of_neg (by simp), List.filter_cons_of_neg (by simp),
        List.filter_eq_self.2 hall,
        List.filter_eq_self.2 fun l hl => hall l (List.mem_of_mem_take hl), List.take_take,
        Nat.min_self]
    · rw [List.take_succ_cons, List.filter_cons_of_pos (by simpa using hxk),
        List.filter_cons_of_pos (by simpa using hxk)]
      cases n with
      | zero => rfl
      | succ n => rw [List.take_succ_cons, List.take_succ_cons, ih hkeys]

def keys (cache : Cache store) : List CacheKey := (store.entries cache.kept).map (·.1)

theorem find?_eq_none_iff {cache : Cache store} {k : CacheKey} :
    cache.find? k = none ↔ k ∉ cache.keys := by
  simp only [find?, keys, List.lookup_eq_none_iff, List.mem_map, not_exists, not_and]
  exact forall₂_congr fun entry _ => bne_iff_ne.trans ne_comm

theorem map_moveToFront (k : CacheKey) (exe : Executable)
    (entries : List (CacheKey × Executable)) :
    (moveToFront k exe entries).map (·.1) = k :: (entries.map (·.1)).filter (· ≠ k) := by
  simp [moveToFront, List.filter_map, Function.comp_def]

/-- A cache of `n` entries after some events. -/
structure Keeps (n : Nat) (events : List Event) (cache : Cache store) : Prop where
  capacity_eq : cache.capacity = n
  room_eq : store.capacity cache.kept = n
  keys_eq : cache.keys = (recency events).take n
  counts_eq : cache.hits + cache.misses = events.countP (·.1.isGet)

theorem keeps_ofCapacity (capacity : Nat) :
    Keeps (max 1 capacity) [] (ofCapacity capacity : Cache store) where
  capacity_eq := rfl
  room_eq := store.capacity_ofCapacity _
  keys_eq := by
    rw [keys, ofCapacity, store.entries_ofCapacity]
    exact List.take_nil.symm
  counts_eq := rfl

section Step

variable {n : Nat} {events : List Event} {cache : Cache store}

theorem Keeps.find?_eq_none_iff (h : Keeps n events cache) {k : CacheKey} :
    cache.find? k = none ↔ ¬ RecentlyReturned n k events := by
  rw [Cache.find?_eq_none_iff, h.keys_eq, mem_take_recency_iff]

theorem Keeps.length_le (h : Keeps n events cache) :
    (store.entries cache.kept).length ≤ n := by
  have hlength := congrArg List.length h.keys_eq
  rw [keys, List.length_map, List.length_take] at hlength
  omega

theorem take_moved (h : Keeps (n + 1) events cache) (k : CacheKey) (exe : Executable) :
    ((moveToFront k exe (store.entries cache.kept)).take (n + 1)).map (·.1) =
      (k :: (recency events).filter (· ≠ k)).take (n + 1) := by
  have hkeys : (store.entries cache.kept).map (·.1) = (recency events).take (n + 1) := h.keys_eq
  rw [List.map_take, map_moveToFront, hkeys, List.take_succ_cons, List.take_succ_cons,
    take_filter_take (nodup_recency events)]

/-- A hit takes its key from its place, so that no entry is lost. -/
theorem length_moved_le (h : Keeps (n + 1) events cache) {k : CacheKey} {exe exe' : Executable}
    (hfound : cache.find? k = some exe) :
    (moveToFront k exe' (store.entries cache.kept)).length ≤ n + 1 := by
  have hlength := h.length_le
  have hmem : (k, exe) ∈ store.entries cache.kept := mem_of_find? hfound
  have hfilter : ((store.entries cache.kept).filter (·.1 ≠ k)).length <
      (store.entries cache.kept).length :=
    List.length_filter_lt_length_iff_exists.2 ⟨_, hmem, by simp⟩
  rw [moveToFront, List.length_cons]
  omega

theorem keeps_get (h : Keeps (n + 1) events cache) (o : TemplateOptions) (template : Json) :
    Keeps (n + 1) (events ++ [(.get o template, .compiled (cache.get o template).1)])
      (cache.get o template).2 := by
  have hcount (result : Except TemplateError Executable) :
      (events ++ [(Request.get o template, Answer.compiled result)]).countP (·.1.isGet) =
        cache.hits + cache.misses + 1 := by
    rw [List.countP_append, ← h.counts_eq]
    rfl
  rcases get_cases cache o template with
    ⟨exe, hfound, heq⟩ | ⟨exe, -, -, heq⟩ | ⟨e, -, -, heq⟩
  · rw [heq]
    refine ⟨h.capacity_eq, ?_, ?_, by rw [hcount, Nat.add_right_comm]⟩
    · rw [store.capacity_get, h.room_eq]
    · rw [recency_concat, note_of_returned rfl, ← take_moved h _ exe,
        List.take_of_length_le (length_moved_le h hfound), keys, store.get_promotes _ _ _ hfound]
  · rw [heq]
    refine ⟨h.capacity_eq, ?_, ?_, by rw [hcount, Nat.add_assoc]⟩
    · rw [store.capacity_put, h.room_eq]
    · rw [recency_concat, note_of_returned rfl, ← take_moved h _ exe, keys, store.put_evicts,
        h.room_eq]
  · rw [heq]
    refine ⟨h.capacity_eq, h.room_eq, ?_, by rw [hcount, Nat.add_assoc]⟩
    rw [recency_concat, note_of_not_returned rfl rfl]
    exact h.keys_eq

theorem keeps_step (h : Keeps (n + 1) events cache) (request : Request) :
    Keeps (n + 1) (events ++ [(request, (cache.step request).1)]) (cache.step request).2 := by
  cases request with
  | get o template => exact keeps_get h o template
  | clear =>
    refine ⟨h.capacity_eq, (store.capacity_clear _).trans h.room_eq, ?_, ?_⟩
    · rw [recency_concat, step, clear, keys, store.entries_clear]
      rfl
    · rw [List.countP_append, ← h.counts_eq]
      rfl
  | stats =>
    refine ⟨h.capacity_eq, h.room_eq, ?_, ?_⟩
    · rw [recency_concat, note_of_not_returned rfl rfl]
      exact h.keys_eq
    · rw [List.countP_append, ← h.counts_eq]
      rfl

theorem keeps_run (h : Keeps (n + 1) events cache) (requests : List Request) :
    Keeps (n + 1) (events ++ cache.log requests) (cache.run requests).2 := by
  induction requests generalizing events cache with
  | nil => simpa [log, run] using h
  | cons request requests ih =>
    have hrest := ih (keeps_step h request)
    rw [List.append_assoc] at hrest
    exact hrest

end Step

theorem countP_log (cache : Cache store) (requests : List Request) :
    (cache.log requests).countP (·.1.isGet) = requests.countP (·.isGet) := by
  induction requests generalizing cache with
  | nil => rfl
  | cons request requests ih =>
    have hrest := ih (cache.step request).2
    show List.countP _ ((request, (cache.step request).1) ::
      (cache.step request).2.log requests) = _
    rw [List.countP_cons, List.countP_cons, hrest]

/-- A cache that was used in any way counts its requests, keeps to its capacity, and hits just where
the key was returned recently. A failure is a miss that leaves all entries in their order. -/
theorem run_ofCapacity_recency (store : LruStore CacheKey Executable) (capacity : Nat)
    (requests : List Request) :
    let n := max 1 capacity
    let cache := ((ofCapacity capacity : Cache store).run requests).2
    let events := (ofCapacity capacity : Cache store).log requests
    cache.stats.hits + cache.stats.misses = requests.countP (·.isGet) ∧
    cache.stats.capacity = n ∧ cache.stats.entries ≤ n ∧
    cache.clear.stats = { cache.stats with entries := 0 } ∧
    ∀ o template,
      let result := (cache.get o template).1
      let next := (cache.get o template).2
      (next.hits = cache.hits + 1 ∧ next.misses = cache.misses ↔
        RecentlyReturned n (key o template) events) ∧
      (next.hits = cache.hits ∧ next.misses = cache.misses + 1 ↔
        ¬ RecentlyReturned n (key o template) events) ∧
      ∀ e, result = .error e →
        next = { cache with misses := cache.misses + 1 } ∧ next.find? (key o template) = none := by
  intro n cache events
  obtain ⟨m, hm⟩ : ∃ m, n = m + 1 := Nat.exists_eq_succ_of_ne_zero (by omega)
  have hstart : Keeps (m + 1) [] (ofCapacity capacity : Cache store) :=
    hm ▸ keeps_ofCapacity capacity
  have hkeeps : Keeps n events cache := hm ▸ keeps_run hstart requests
  refine ⟨?_, hkeeps.capacity_eq, hkeeps.length_le, ?_, fun o template => ?_⟩
  · exact hkeeps.counts_eq.trans (countP_log _ requests)
  · rw [stats, clear, store.entries_clear]
    rfl
  · have hnone := hkeeps.find?_eq_none_iff (k := key o template)
    rcases get_cases cache o template with
      ⟨exe, hfound, heq⟩ | ⟨exe, hmiss, -, heq⟩ | ⟨e, hmiss, -, heq⟩
    · have hrecent : RecentlyReturned n (key o template) events :=
        not_not.1 fun hnot => by simp [hnone.2 hnot] at hfound
      simp [heq, hrecent]
    · simp [heq, hnone.1 hmiss]
    · refine ⟨?_, ?_, fun e' _ => ?_⟩
      · simp [heq, hnone.1 hmiss]
      · simp [heq, hnone.1 hmiss]
      · rw [heq]
        exact ⟨rfl, hmiss⟩

theorem run_ofCapacity_recency_failed :
    let name : Json := .string "\x7b\x7b a \x7d\x7d"
    let broken : Json := .string "\x7b\x7b ( \x7d\x7d"
    let cache := ((ofCapacity 0 : Cache .list).run [.get .standard name, .get .standard broken]).2
    ∃ e, (cache.get .standard broken).1 = .error e ∧
      (cache.get .standard broken).2 = { cache with misses := cache.misses + 1 } ∧
      (cache.get .standard broken).2.find? (key .standard broken) = none := by
  intro name broken cache
  have hfails : ¬ (cache.get .standard broken).1.isOk := by decide +kernel
  obtain ⟨-, -, -, -, hget⟩ :=
    run_ofCapacity_recency .list 0 [.get .standard name, .get .standard broken]
  cases hresult : (cache.get .standard broken).1 with
  | ok exe =>
    rw [hresult] at hfails
    exact (hfails rfl).elim
  | error e => exact ⟨e, rfl, (hget .standard broken).2.2 e hresult⟩

end Cache

end JsonStencil
