import JsonStencil.Cache
import JsonStencil.Proofs.Json.RoundTrip

/-!
# Cached executables are compiled ones

A cache in use is asked for executables, cleared and looked at in any order. Every entry it keeps is
what each template with the key of the entry compiles to, because no two documents have one text. So
an executable from the cache is the one that a new compilation would give, whatever its store is.
-/

namespace JsonStencil

namespace Cache

variable {store : LruStore CacheKey Executable}

inductive Request where
  | get (o : TemplateOptions) (template : Json)
  | clear
  | stats

inductive Answer where
  | compiled (result : Except TemplateError Executable)
  | cleared
  | stats (s : Stats)

def step (cache : Cache store) : Request → Answer × Cache store
  | .get o template => (.compiled (cache.get o template).1, (cache.get o template).2)
  | .clear => (.cleared, cache.clear)
  | .stats => (.stats cache.stats, cache)

/-- The answers to requests in turn, and the cache that is left. -/
def run (cache : Cache store) : List Request → List Answer × Cache store
  | [] => ([], cache)
  | request :: requests =>
    let (answer, cache) := cache.step request
    let (answers, cache) := run cache requests
    (answer :: answers, cache)

/-- The template that is asked for is a document. -/
def Request.isWellFormed : Request → Bool
  | .get _ template => template.isWellFormed
  | _ => true

theorem key_injective {o o' : TemplateOptions} {template template' : Json}
    (h : template.isWellFormed) (h' : template'.isWellFormed)
    (heq : key o template = key o' template') : o = o' ∧ template = template' := by
  obtain ⟨ho, ht⟩ := CacheKey.mk.inj heq
  exact ⟨ho, Json.render_injective h h' ht⟩

/-- The executable is what each template with the key compiles to. -/
def IsCompiled (entry : CacheKey × Executable) : Prop :=
  ∀ o template, template.isWellFormed → key o template = entry.1 →
    Executable.compile o (.ofJson template) = .ok entry.2

theorem isCompiled_key {o : TemplateOptions} {template : Json} {exe : Executable}
    (h : template.isWellFormed) (hexe : Executable.compile o (.ofJson template) = .ok exe) :
    IsCompiled (key o template, exe) := by
  intro o' template' h' heq
  obtain ⟨rfl, rfl⟩ := key_injective h' h heq
  exact hexe

/-- What is kept for a key, without using it. -/
def find? (cache : Cache store) (key : CacheKey) : Option Executable :=
  List.lookup key (store.entries cache.kept)

/-- A request for an executable hits, or compiles and stores, or only fails. -/
theorem get_cases (cache : Cache store) (o : TemplateOptions) (template : Json) :
    (∃ exe, cache.find? (key o template) = some exe ∧ cache.get o template =
      (.ok exe, { cache with
        kept := (store.get (key o template) cache.kept).2, hits := cache.hits + 1 })) ∨
    (∃ exe, cache.find? (key o template) = none ∧
      Executable.compile o (.ofJson template) = .ok exe ∧ cache.get o template =
        (.ok exe, { cache with
          kept := store.put (key o template) exe cache.kept, misses := cache.misses + 1 })) ∨
    ∃ e, cache.find? (key o template) = none ∧ Executable.compile o (.ofJson template) = .error e ∧
      cache.get o template = (.error e, { cache with misses := cache.misses + 1 }) := by
  have hvalue := store.get_value (key o template) cache.kept
  cases hfound : cache.find? (key o template) with
  | some exe =>
    have hget : store.get (key o template) cache.kept =
        (some exe, (store.get (key o template) cache.kept).2) :=
      Prod.ext (hvalue.trans hfound) rfl
    refine .inl ⟨exe, rfl, ?_⟩
    rw [get, hget]
  | none =>
    have hget : store.get (key o template) cache.kept = (none, cache.kept) :=
      Prod.ext (hvalue.trans hfound) (store.get_missing _ _ hfound)
    refine .inr ?_
    rw [get, hget]
    cases Executable.compile o (.ofJson template) with
    | ok exe => exact .inl ⟨exe, rfl, rfl, rfl⟩
    | error e => exact .inr ⟨e, rfl, rfl, rfl⟩

/-- All entries are what templates with their keys compile to. -/
def Sound (cache : Cache store) : Prop := ∀ entry ∈ store.entries cache.kept, IsCompiled entry

theorem sound_ofCapacity (capacity : Nat) : Sound (ofCapacity capacity : Cache store) := by
  intro entry hentry
  rw [ofCapacity, store.entries_ofCapacity] at hentry
  cases hentry

theorem mem_of_find? {cache : Cache store} {k : CacheKey} {exe : Executable}
    (h : cache.find? k = some exe) : (k, exe) ∈ store.entries cache.kept := by
  obtain ⟨before, behind, hsplit, -⟩ := List.lookup_eq_some_iff.1 h
  rw [hsplit]
  simp

theorem mem_moveToFront {k : CacheKey} {exe : Executable} {entries : List (CacheKey × Executable)}
    {entry : CacheKey × Executable} (h : entry ∈ moveToFront k exe entries) :
    entry = (k, exe) ∨ entry ∈ entries := by
  rcases List.mem_cons.1 h with heq | hmem
  · exact .inl heq
  · exact .inr (List.mem_filter.1 hmem).1

section Get

variable {cache : Cache store} {o : TemplateOptions} {template : Json}

theorem get_eq_compile (hsound : cache.Sound) (h : template.isWellFormed) :
    (cache.get o template).1 = Executable.compile o (.ofJson template) := by
  rcases get_cases cache o template with
    ⟨exe, hfound, heq⟩ | ⟨exe, -, hexe, heq⟩ | ⟨e, -, he, heq⟩
  · rw [heq, hsound _ (mem_of_find? hfound) o template h rfl]
  · rw [heq, hexe]
  · rw [heq, he]

theorem sound_get (hsound : cache.Sound) (h : template.isWellFormed) :
    (cache.get o template).2.Sound := by
  have hmoved {exe : Executable} (hexe : IsCompiled (key o template, exe)) :
      ∀ entry ∈ moveToFront (key o template) exe (store.entries cache.kept), IsCompiled entry := by
    intro entry hentry
    rcases mem_moveToFront hentry with rfl | hmem
    · exact hexe
    · exact hsound entry hmem
  rcases get_cases cache o template with
    ⟨exe, hfound, heq⟩ | ⟨exe, -, hexe, heq⟩ | ⟨e, -, -, heq⟩
  · rw [heq, Sound, store.get_promotes _ _ _ hfound]
    exact hmoved (hsound _ (mem_of_find? hfound))
  · rw [heq, Sound, store.put_evicts]
    exact fun entry hentry => hmoved (isCompiled_key h hexe) entry (List.mem_of_mem_take hentry)
  · rw [heq]
    exact hsound

end Get

theorem sound_step {cache : Cache store} (hsound : cache.Sound) {request : Request}
    (h : request.isWellFormed) : (cache.step request).2.Sound := by
  cases request with
  | get o template => exact sound_get hsound h
  | clear =>
    intro entry hentry
    rw [step, clear, store.entries_clear] at hentry
    cases hentry
  | stats => exact hsound

theorem run_get_eq_compile {requests : List Request} {cache : Cache store} (hsound : cache.Sound)
    (h : ∀ request ∈ requests, request.isWellFormed) {i : Nat} {o : TemplateOptions}
    {template : Json} (hi : requests[i]? = some (.get o template)) :
    (cache.run requests).1[i]? =
      some (.compiled (Executable.compile o (.ofJson template))) := by
  induction requests generalizing cache i with
  | nil => cases hi
  | cons request requests ih =>
    obtain ⟨hrequest, hrequests⟩ := List.forall_mem_cons.1 h
    cases i with
    | zero =>
      cases hi
      exact congrArg (some ∘ Answer.compiled) (get_eq_compile hsound hrequest)
    | succ i => exact ih (sound_step hsound hrequest) hrequests hi

/-- Whatever a cache was asked before, it answers with what the template compiles to. -/
theorem run_ofCapacity_get (store : LruStore CacheKey Executable) (capacity : Nat)
    {requests : List Request} (h : ∀ request ∈ requests, request.isWellFormed) {i : Nat}
    {o : TemplateOptions} {template : Json} (hi : requests[i]? = some (.get o template)) :
    ((ofCapacity capacity : Cache store).run requests).1[i]? =
      some (.compiled (Executable.compile o (.ofJson template))) :=
  run_get_eq_compile (sound_ofCapacity capacity) h hi

theorem run_ofCapacity_get_evicted :
    let name : Json := .string "\x7b\x7b a \x7d\x7d"
    let requests : List Request := [.get .standard name, .get .standard (.array [name, .integer 1]),
      .stats, .get .standard (.string "\x7b\x7b ( \x7d\x7d"), .get .standard name]
    ((ofCapacity 0 : Cache .list).run requests).1[4]? =
      some (.compiled (Executable.compile .standard (.ofJson name))) := by
  intro name requests
  exact run_ofCapacity_get .list 0 (by decide) rfl

end Cache

end JsonStencil
