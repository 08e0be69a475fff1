import TagPath.Path.Basic

/-! # A cache of compiled paths

The cache keeps each path that it compiled under the path's text.  Asked again for
the same text, it hands out what it kept.  Whether two answers are one and the same
shows in their stamps: every compilation that is kept gets a stamp of its own, also
after the cache was emptied.  A text that cannot be compiled leaves no trace.
-/
namespace TagPath

/-- A compiled path as it is handed out: the stamp tells it from an equal path that
was compiled another time. -/
structure CompiledPath where
  stamp : Nat
  path : Path
deriving Repr, DecidableEq

/-- What the cache keeps under a text. -/
structure CacheEntry where
  source : String
  compiled : CompiledPath
deriving Repr, DecidableEq

/-- Compiled paths by their texts. -/
structure PathCache where
  entries : List CacheEntry := []
  /-- How many stamps were given out. -/
  issued : Nat := 0
deriving Repr

namespace PathCache

/-- What is kept under a text. -/
def find? (cache : PathCache) (source : String) : Option CompiledPath :=
  (cache.entries.find? (·.source == source)).map (·.compiled)

/-- What is kept under a text, or what compiling it gives, which is kept if it
succeeds. -/
def get (cache : PathCache) (source : String) : Except PathError CompiledPath × PathCache :=
  match cache.find? source with
  | some compiled => (.ok compiled, cache)
  | none => match Path.read (some source) with
    | .error error => (.error error, cache)
    | .ok path =>
      let compiled := ⟨cache.issued, path⟩
      (.ok compiled, ⟨⟨source, compiled⟩ :: cache.entries, cache.issued + 1⟩)

/-- Forgets all paths; stamps go on from where they were. -/
def clear (cache : PathCache) : PathCache := { cache with entries := [] }

/-- How many texts something is kept under. -/
def size (cache : PathCache) : Nat := cache.entries.length

/-- Whether nothing is kept. -/
def isEmpty (cache : PathCache) : Bool := cache.entries.isEmpty

@[simp] theorem find?_clear (cache : PathCache) (source : String) :
    cache.clear.find? source = none := rfl

@[simp] theorem size_clear (cache : PathCache) : cache.clear.size = 0 := rfl

/-- A text that is kept is answered without a change. -/
theorem get_of_find? {cache : PathCache} {source : String} {compiled : CompiledPath}
    (h : cache.find? source = some compiled) : cache.get source = (.ok compiled, cache) := by
  simp [get, h]

/-- A text that cannot be compiled leaves the cache as it is. -/
theorem get_of_error {cache : PathCache} {source : String} {error : PathError}
    (h : (cache.get source).1 = .error error) : (cache.get source).2 = cache := by
  unfold get at *
  split at h
  · simp at h
  · split at h
    · rfl
    · simp at h

/-- After a text was answered, that answer is kept under it. -/
theorem find?_get {cache : PathCache} {source : String} {compiled : CompiledPath}
    (h : (cache.get source).1 = .ok compiled) :
    (cache.get source).2.find? source = some compiled := by
  unfold get at *
  split at h
  · rename_i hf
    simp only [Except.ok.injEq] at h
    rw [← h]; exact hf
  · rename_i hf
    split at h
    · simp at h
    · rename_i path hp
      simp only [Except.ok.injEq] at h
      simp [find?, ← h]

end PathCache
end TagPath
