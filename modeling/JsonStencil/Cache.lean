import JsonStencil.Executable
import JsonStencil.Json.Writer
import JsonStencil.Lru

/-!
# Caching executables

A cache keeps the executables that were asked for last, by the options and the text of the template.
Templates that do not compile are not kept.
-/

namespace JsonStencil

structure CacheKey where
  options : TemplateOptions
  text : String
  deriving DecidableEq

/-- A store of executables and two counts of requests. The counts have no bound here, where counters
of 64 bits start again from zero after 2^64 requests. -/
structure Cache (store : LruStore CacheKey Executable) where
  capacity : Nat
  kept : store.State
  hits : Nat
  misses : Nat

namespace Cache

variable {store : LruStore CacheKey Executable}

def defaultCapacity : Nat := 128

/-- An empty cache, which has room for one executable at least. -/
def ofCapacity (capacity : Nat) : Cache store :=
  ⟨max 1 capacity, store.ofCapacity (max 1 capacity), 0, 0⟩

def key (o : TemplateOptions) (template : Json) : CacheKey := ⟨o, template.render⟩

def get (cache : Cache store) (o : TemplateOptions) (template : Json) :
    Except TemplateError Executable × Cache store :=
  let key := key o template
  match store.get key cache.kept with
  | (some exe, kept) => (.ok exe, { cache with kept, hits := cache.hits + 1 })
  | (none, kept) =>
    let cache := { cache with kept, misses := cache.misses + 1 }
    match Executable.compile o (.ofJson template) with
    | .error e => (.error e, cache)
    | .ok exe => (.ok exe, { cache with kept := store.put key exe kept })

/-- Drops all entries and keeps the counts. -/
def clear (cache : Cache store) : Cache store := { cache with kept := store.clear cache.kept }

structure Stats where
  entries : Nat
  capacity : Nat
  hits : Nat
  misses : Nat
  deriving DecidableEq, Repr

def stats (cache : Cache store) : Stats :=
  ⟨(store.entries cache.kept).length, cache.capacity, cache.hits, cache.misses⟩

end Cache

end JsonStencil
