import Mathlib
import TagPath.Path.Cache

/-! # Runs of a cache

A cache is asked for paths, and emptied, any number of times (`CacheCall`,
`PathCache.after`).  Four facts hold at every moment (`PathCache.Coherent`): what is kept
under a text is that text compiled; no text is kept twice; no stamp is used twice; and every
stamp in use was issued, so the next one is new.

By the first, an answer is what compiling gives, whatever was asked before
(`Coherent.map_path_get`).  By the second, the size is the number of texts that were asked
for since the cache was last emptied and can be compiled (`size_after`).  By the other two,
**two answers bear the same stamp exactly if they were given for the same text and the cache
was not emptied in between** (`Coherent.stamp_eq_iff`): an entry stays as long as the cache
is not emptied, and the stamps handed out afterwards are all new.
-/
namespace TagPath

/-- What is done with a cache. -/
inductive CacheCall where
  | get (source : String)
  | clear
deriving Repr, DecidableEq

/-- The calls behind the last one that emptied the cache. -/
def sinceClear (calls : List CacheCall) : List CacheCall := calls.rtakeWhile (· ≠ .clear)

namespace PathCache

/-- The cache after a call. -/
def call (cache : PathCache) : CacheCall → PathCache
  | .get source => (cache.get source).2
  | .clear => cache.clear

/-- The cache after some calls. -/
def after (cache : PathCache) (calls : List CacheCall) : PathCache := calls.foldl call cache

/-- The texts that something is kept under. -/
def sources (cache : PathCache) : List String := cache.entries.map (·.source)

/-- The stamps of what is kept. -/
def stamps (cache : PathCache) : List Nat := cache.entries.map (·.compiled.stamp)

/-- The cache with one more path, kept with the next stamp. -/
def keep (cache : PathCache) (source : String) (path : Path) : PathCache :=
  ⟨⟨source, cache.issued, path⟩ :: cache.entries, cache.issued + 1⟩

section Calls
variable {cache : PathCache} {source : String} {path : Path}

@[simp] theorem sources_keep :
    (cache.keep source path).sources = source :: cache.sources := rfl

@[simp] theorem sources_clear (cache : PathCache) : cache.clear.sources = [] := rfl

@[simp] theorem stamps_clear (cache : PathCache) : cache.clear.stamps = [] := rfl

theorem after_cons (cache : PathCache) (call : CacheCall) (calls : List CacheCall) :
    cache.after (call :: calls) = (cache.call call).after calls := rfl

theorem after_append (cache : PathCache) (first second : List CacheCall) :
    cache.after (first ++ second) = (cache.after first).after second := List.foldl_append

/-- A text is answered with what is kept under it, or else it is compiled: then it is at
fault and the cache stays as it is, or the path is kept with the next stamp. -/
theorem get_cases (cache : PathCache) (source : String) :
    (∃ compiled, ⟨source, compiled⟩ ∈ cache.entries ∧
      cache.get source = (.ok compiled, cache)) ∨
    (source ∉ cache.sources ∧
      ((∃ error, Path.read (some source) = .error error ∧
        cache.get source = (.error error, cache)) ∨
      ∃ path, Path.read (some source) = .ok path ∧
        cache.get source = (.ok ⟨cache.issued, path⟩, cache.keep source path))) := by
  unfold get find?
  cases hf : cache.entries.find? (·.source == source) with
  | some entry =>
    obtain rfl : entry.source = source := by simpa using List.find?_some hf
    exact .inl ⟨entry.compiled, List.mem_of_find?_eq_some hf, rfl⟩
  | none =>
    refine .inr ⟨?_, ?_⟩
    · intro hm
      obtain ⟨entry, he, rfl⟩ := List.mem_map.mp hm
      simpa using List.find?_eq_none.mp hf entry he
    · cases Path.read (some source) with
      | error error => exact .inl ⟨error, rfl, rfl⟩
      | ok path => exact .inr ⟨path, rfl, rfl⟩

end Calls

/-! ## What holds at every moment -/

/-- Each text is kept once, compiled, with a stamp of its own that was issued. -/
structure Coherent (cache : PathCache) : Prop where
  compiled : ∀ entry ∈ cache.entries, Path.read (some entry.source) = .ok entry.compiled.path
  sources : cache.sources.Nodup
  stamps : cache.stamps.Nodup
  issued : ∀ stamp ∈ cache.stamps, stamp < cache.issued

/-- A cache that keeps nothing is coherent, whatever it issued. -/
theorem coherent_clear (cache : PathCache) : cache.clear.Coherent :=
  ⟨nofun, List.nodup_nil, List.nodup_nil, nofun⟩

theorem coherent_empty : Coherent {} := coherent_clear {}

namespace Coherent
variable {cache : PathCache} {source : String} (h : cache.Coherent)
include h

protected theorem keep {path : Path} (hs : source ∉ cache.sources)
    (hp : Path.read (some source) = .ok path) : (cache.keep source path).Coherent where
  compiled := by
    intro entry he
    rcases List.mem_cons.mp he with rfl | he
    · exact hp
    · exact h.compiled entry he
  sources := List.nodup_cons.mpr ⟨hs, h.sources⟩
  stamps := List.nodup_cons.mpr ⟨fun hm => lt_irrefl _ (h.issued _ hm), h.stamps⟩
  issued := by
    intro stamp hm
    rcases List.mem_cons.mp hm with rfl | hm
    · exact Nat.lt_succ_self _
    · exact Nat.lt_succ_of_lt (h.issued stamp hm)

protected theorem get (source : String) : (cache.get source).2.Coherent := by
  obtain ⟨compiled, -, hg⟩ | ⟨hs, ⟨error, -, hg⟩ | ⟨path, hp, hg⟩⟩ := cache.get_cases source
  · rwa [hg]
  · rwa [hg]
  · rw [hg]
    exact h.keep hs hp

protected theorem after (calls : List CacheCall) : (cache.after calls).Coherent := by
  induction calls generalizing cache with
  | nil => exact h
  | cons call calls ih =>
    cases call with
    | get source => exact ih (h.get source)
    | clear => exact ih (coherent_clear cache)

/-- A text is at fault, and the cache stays as it is, or it is answered with its path. -/
theorem get_eq (source : String) :
    (∃ error, Path.read (some source) = .error error ∧
      cache.get source = (.error error, cache)) ∨
    ∃ compiled, Path.read (some source) = .ok compiled.path ∧
      cache.get source = (.ok compiled, (cache.get source).2) := by
  obtain ⟨compiled, he, hg⟩ | ⟨-, hfault | ⟨path, hp, hg⟩⟩ := cache.get_cases source
  · refine .inr ⟨compiled, h.compiled ⟨source, compiled⟩ he, ?_⟩
    rw [hg]
  · exact .inl hfault
  · refine .inr ⟨⟨cache.issued, path⟩, hp, ?_⟩
    rw [hg]

/-- **An answer is what compiling gives.** -/
theorem map_path_get (source : String) :
    (cache.get source).1.map (·.path) = Path.read (some source) := by
  obtain ⟨error, hp, hg⟩ | ⟨compiled, hp, hg⟩ := h.get_eq source
  · rw [hg, hp]
    rfl
  · rw [hg, hp]
    rfl

/-- A stamp tells the text. -/
theorem stamp_eq_iff_source_eq {entry other : CacheEntry} (he : entry ∈ cache.entries)
    (ho : other ∈ cache.entries) :
    entry.compiled.stamp = other.compiled.stamp ↔ entry.source = other.source := by
  constructor
  · intro hstamp
    rw [List.inj_on_of_nodup_map h.stamps he ho hstamp]
  · intro hsource
    rw [List.inj_on_of_nodup_map h.sources he ho hsource]

end Coherent

/-! ## The size -/

section Size
variable {cache : PathCache} {source asked : String}

/-- Something is kept under the texts that it was kept under before, and under the text
asked for, if that can be compiled. -/
theorem mem_sources_get_iff :
    source ∈ (cache.get asked).2.sources ↔
      source ∈ cache.sources ∨ source = asked ∧ ∃ path, Path.read (some source) = .ok path := by
  obtain ⟨compiled, he, hg⟩ | ⟨-, ⟨error, hp, hg⟩ | ⟨path, hp, hg⟩⟩ := cache.get_cases asked
  · have hm : asked ∈ cache.sources := List.mem_map_of_mem he
    rw [hg]
    refine ⟨.inl, ?_⟩
    rintro (hs | ⟨rfl, -⟩)
    · exact hs
    · exact hm
  · rw [hg]
    refine ⟨.inl, ?_⟩
    rintro (hs | ⟨rfl, path, hok⟩)
    · exact hs
    · cases hp.symm.trans hok
  · rw [hg, sources_keep, List.mem_cons, or_comm]
    refine or_congr_right ⟨?_, And.left⟩
    rintro rfl
    exact ⟨rfl, path, hp⟩

/-- **What is kept are the texts asked for since the cache was last emptied**, as far as they
can be compiled. -/
theorem mem_sources_after_iff {calls : List CacheCall} :
    source ∈ (after {} calls).sources ↔
      .get source ∈ sinceClear calls ∧ ∃ path, Path.read (some source) = .ok path := by
  induction calls using List.reverseRecOn with
  | nil => simp [after, sources, sinceClear]
  | append_singleton calls call ih =>
    rw [after_append, sinceClear]
    cases call with
    | get asked =>
      rw [List.rtakeWhile_concat_pos _ _ _ (by simp), List.mem_append, List.mem_singleton,
        CacheCall.get.injEq]
      show source ∈ ((after {} calls).get asked).2.sources ↔ _
      rw [mem_sources_get_iff, ih, or_and_right]
      rfl
    | clear =>
      rw [List.rtakeWhile_concat_neg _ _ _ (by simp)]
      show source ∈ (after {} calls).clear.sources ↔ _
      simp

theorem size_after (calls : List CacheCall) :
    (after {} calls).size = {source : String | .get source ∈ sinceClear calls ∧
      ∃ path, Path.read (some source) = .ok path}.ncard := by
  have hset : {source : String | .get source ∈ sinceClear calls ∧
      ∃ path, Path.read (some source) = .ok path} =
        ((after {} calls).sources.toFinset : Set _) := by
    ext source
    simp [mem_sources_after_iff]
  rw [hset, Set.ncard_coe_finset,
    List.toFinset_card_of_nodup (coherent_empty.after calls).sources, sources, List.length_map]
  rfl

end Size

/-! ## Stamps -/

section Stamps
variable {cache : PathCache} {source : String} {bound : Nat}

/-- What was answered is kept. -/
theorem mem_entries_get {compiled : CompiledPath} (h : (cache.get source).1 = .ok compiled) :
    ⟨source, compiled⟩ ∈ (cache.get source).2.entries := by
  obtain ⟨kept, he, hg⟩ | ⟨-, ⟨error, -, hg⟩ | ⟨path, -, hg⟩⟩ := cache.get_cases source
  · rw [hg] at h ⊢
    obtain rfl : kept = compiled := Except.ok.inj h
    exact he
  · rw [hg] at h
    cases h
  · rw [hg] at h ⊢
    obtain rfl := Except.ok.inj h
    exact List.mem_cons_self

theorem entries_subset_get (cache : PathCache) (source : String) :
    cache.entries ⊆ (cache.get source).2.entries := by
  obtain ⟨compiled, -, hg⟩ | ⟨-, ⟨error, -, hg⟩ | ⟨path, -, hg⟩⟩ := cache.get_cases source
  · rw [hg]
    exact List.Subset.refl _
  · rw [hg]
    exact List.Subset.refl _
  · rw [hg]
    exact List.subset_cons_self _ _

/-- Entries stay as long as the cache is not emptied. -/
theorem entries_subset_after {calls : List CacheCall} (hc : .clear ∉ calls) :
    cache.entries ⊆ (cache.after calls).entries := by
  induction calls generalizing cache with
  | nil => exact List.Subset.refl _
  | cons call calls ih =>
    rw [List.mem_cons, not_or] at hc
    cases call with
    | get source => exact List.Subset.trans (entries_subset_get cache source) (ih hc.2)
    | clear => exact absurd rfl hc.1

/-- No stamp in use, nor the next one, is below the bound. -/
structure NewSince (bound : Nat) (cache : PathCache) : Prop where
  issued : bound ≤ cache.issued
  stamps : ∀ stamp ∈ cache.stamps, bound ≤ stamp

theorem issued_le_get (cache : PathCache) (source : String) :
    cache.issued ≤ (cache.get source).2.issued := by
  obtain ⟨compiled, -, hg⟩ | ⟨-, ⟨error, -, hg⟩ | ⟨path, -, hg⟩⟩ := cache.get_cases source
  all_goals rw [hg]
  exact Nat.le_succ _

theorem issued_le_after (cache : PathCache) (calls : List CacheCall) :
    cache.issued ≤ (cache.after calls).issued := by
  induction calls generalizing cache with
  | nil => exact le_refl _
  | cons call calls ih =>
    cases call with
    | get source => exact (issued_le_get cache source).trans (ih _)
    | clear => exact ih cache.clear

protected theorem NewSince.get (h : cache.NewSince bound) (source : String) :
    (cache.get source).2.NewSince bound := by
  obtain ⟨compiled, -, hg⟩ | ⟨-, ⟨error, -, hg⟩ | ⟨path, -, hg⟩⟩ := cache.get_cases source
  · rwa [hg]
  · rwa [hg]
  · rw [hg]
    refine ⟨Nat.le_succ_of_le h.issued, fun stamp hm => ?_⟩
    rcases List.mem_cons.mp hm with rfl | hm
    · exact h.issued
    · exact h.stamps stamp hm

protected theorem NewSince.clear (h : bound ≤ cache.issued) : cache.clear.NewSince bound :=
  ⟨h, by simp⟩

protected theorem NewSince.after (h : cache.NewSince bound) (calls : List CacheCall) :
    (cache.after calls).NewSince bound := by
  induction calls generalizing cache with
  | nil => exact h
  | cons call calls ih =>
    cases call with
    | get source => exact ih (h.get source)
    | clear => exact ih (.clear h.issued)

/-- Once the cache was emptied, all its stamps are new. -/
theorem newSince_after_of_clear_mem {calls : List CacheCall} (hc : .clear ∈ calls) :
    (cache.after calls).NewSince cache.issued := by
  obtain ⟨first, second, rfl⟩ := List.append_of_mem hc
  rw [after_append, after_cons]
  exact NewSince.after (.clear (issued_le_after cache first)) second

/-- **Two answers bear the same stamp exactly if they were given for the same text and the
cache was not emptied in between.** -/
theorem Coherent.stamp_eq_iff {source' : String} {between : List CacheCall}
    {compiled compiled' : CompiledPath} (h : cache.Coherent)
    (hg : (cache.get source).1 = .ok compiled)
    (hg' : ((cache.after (.get source :: between)).get source').1 = .ok compiled') :
    compiled.stamp = compiled'.stamp ↔ source = source' ∧ .clear ∉ between := by
  have hfirst := mem_entries_get hg
  have hlast := mem_entries_get hg'
  have hcoherent := h.get source
  by_cases hc : .clear ∈ between
  · -- the first stamp was issued before the cache was emptied, the last one afterwards
    have hold : compiled.stamp < (cache.get source).2.issued :=
      hcoherent.issued _ (List.mem_map_of_mem hfirst)
    have hnew : (cache.get source).2.issued ≤ compiled'.stamp :=
      ((newSince_after_of_clear_mem hc).get source').stamps _ (List.mem_map_of_mem hlast)
    refine iff_of_false (by omega) fun hn => hn.2 hc
  · -- the first entry is still there when the last answer is given
    have hkept := entries_subset_get _ source' (entries_subset_after hc hfirst)
    have hiff := ((hcoherent.after between).get source').stamp_eq_iff_source_eq hkept hlast
    exact hiff.trans (and_iff_left hc).symm

end Stamps

/-- **A cache answers as compiling does, and one path is handed out for each text.**  After
any calls: each answer is what compiling gives; the size is the number of texts that were
asked for since the cache was last emptied and can be compiled; an answer that is a fault
leaves the cache as it is; and a later answer bears the stamp of an earlier one exactly if
both are for one text and the cache was not emptied in between. -/
theorem calls_exact (calls : List CacheCall) :
    (∀ source, ((after {} calls).get source).1.map (·.path) = Path.read (some source)) ∧
    (after {} calls).size = {source : String | .get source ∈ sinceClear calls ∧
      ∃ path, Path.read (some source) = .ok path}.ncard ∧
    (∀ source error, ((after {} calls).get source).1 = .error error →
      ((after {} calls).get source).2 = after {} calls) ∧
    ∀ source compiled between source' compiled',
      ((after {} calls).get source).1 = .ok compiled →
      ((after {} (calls ++ .get source :: between)).get source').1 = .ok compiled' →
        (compiled.stamp = compiled'.stamp ↔ source = source' ∧ .clear ∉ between) := by
  have hcoherent := coherent_empty.after calls
  refine ⟨hcoherent.map_path_get, size_after calls, fun source error => get_of_error, ?_⟩
  intro source compiled between source' compiled' hg hg'
  rw [after_append] at hg'
  exact hcoherent.stamp_eq_iff hg hg'

/-- A separator at the end makes another text of the same path. -/
theorem calls_exact_separator :
    let calls : List CacheCall := [.get "a", .clear, .get "b["]
    ∃ compiled compiled', ((after {} calls).get "a").1 = .ok compiled ∧
      ((after {} (calls ++ [.get "a"])).get "a/").1 = .ok compiled' ∧
        compiled.path = compiled'.path ∧ compiled.stamp ≠ compiled'.stamp := by
  intro calls
  have hread : Path.read (some "a") = .ok ⟨[.named "a" []], by simp⟩ :=
    Path.ofChars_eq_ok_iff.mpr (by cbv)
  have hread' : Path.read (some "a/") = .ok ⟨[.named "a" []], by simp⟩ :=
    Path.ofChars_eq_ok_iff.mpr (by cbv)
  obtain ⟨error, hp, -⟩ | ⟨compiled, hp, hg⟩ := (coherent_empty.after calls).get_eq "a"
  · cases hread.symm.trans hp
  obtain ⟨error, hp', -⟩ | ⟨compiled', hp', hg'⟩ :=
    (coherent_empty.after (calls ++ [.get "a"])).get_eq "a/"
  · cases hread'.symm.trans hp'
  have hfirst : ((after {} calls).get "a").1 = .ok compiled := congrArg Prod.fst hg
  have hlast : ((after {} (calls ++ [.get "a"])).get "a/").1 = .ok compiled' :=
    congrArg Prod.fst hg'
  obtain ⟨-, -, -, hstamp⟩ := calls_exact calls
  have hiff := hstamp "a" compiled [] "a/" compiled' hfirst hlast
  refine ⟨compiled, compiled', hfirst, hlast, ?_, fun he => absurd (hiff.mp he).1 (by decide)⟩
  exact Except.ok.inj (hp.symm.trans (hread.trans (hread'.symm.trans hp')))

end PathCache
end TagPath
