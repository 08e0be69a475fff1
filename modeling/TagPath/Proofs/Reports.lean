import TagPath.Command.Run
import TagPath.Proofs.CacheRuns
import TagPath.Proofs.HeldTexts

/-! # The answer of a run

A run compiles its paths one after the other and writes out what is reported of each before
it compiles the next one.  The cache that goes along changes nothing of what a path is
compiled to, and the texts are made exactly if they can be held.  So some paths that can all
be compiled are reported as a block (`Options.reportPaths_append`): their entries are put
together if all can be held, and otherwise the run stops.  Behind such a block comes the
first path that cannot be compiled, or there is no such path
(`forall_compiled_or_exists_first`).
-/
namespace TagPath
open Text

/-- A text can be compiled to a path. -/
def Compiles (source : String) (path : Path) : Prop := Path.read (some source) = .ok path

theorem Compiles.eq {source : String} {path other : Path} (h : Compiles source path)
    (h' : Compiles source other) : path = other :=
  Except.ok.inj (h.symm.trans h')

theorem Compiles.ne_error {source : String} {path : Path} (h : Compiles source path)
    {cause : PathError} : Path.read (some source) ≠ .error cause := by
  rw [Compiles] at h
  simp [h]

/-- Either all paths can be compiled, or one of them is the first that cannot. -/
theorem forall_compiled_or_exists_first (sources : List String) :
    (∃ paths, List.Forall₂ Compiles sources paths) ∨
    ∃ before paths source behind cause, sources = before ++ source :: behind ∧
      List.Forall₂ Compiles before paths ∧ Path.read (some source) = .error cause := by
  induction sources with
  | nil => exact .inl ⟨[], .nil⟩
  | cons source rest ih =>
    cases hs : Path.read (some source) with
    | error cause => exact .inr ⟨[], [], source, rest, cause, rfl, .nil, hs⟩
    | ok path =>
      rcases ih with ⟨paths, hp⟩ | ⟨before, paths, first, behind, cause, rfl, hp, hfirst⟩
      · exact .inl ⟨path :: paths, .cons hs hp⟩
      · exact .inr ⟨source :: before, path :: paths, first, behind, cause, rfl,
          .cons hs hp, hfirst⟩

theorem exists_of_forall₂_of_mem {α β : Type} {R : α → β → Prop} {xs : List α} {ys : List β}
    (h : List.Forall₂ R xs ys) {x : α} (hx : x ∈ xs) : ∃ y, R x y := by
  induction h with
  | nil => cases hx
  | cons hR _ ih =>
    rcases List.mem_cons.mp hx with rfl | hx
    · exact ⟨_, hR⟩
    · exact ih hx

theorem forall₂_compiles_unique {sources : List String} {paths others : List Path}
    (h : List.Forall₂ Compiles sources paths) (h' : List.Forall₂ Compiles sources others) :
    paths = others := by
  induction h generalizing others with
  | nil =>
    cases h'
    rfl
  | cons hp _ ih =>
    cases h' with
    | cons hp' hrest => rw [hp.eq hp', ih hrest]

/-! ## Texts of entries -/

/-- The text of some entries, one a line. -/
def textOfEntries (entries : List String) : String :=
  let joined := "\n".intercalate entries
  if joined = "" then "" else joined ++ "\n"

/-- The text of entries is made exactly if it can be held. -/
theorem textOfEntries?_eq_held? (entries : List String) :
    textOfEntries? entries = held? (textOfEntries entries) := by
  unfold textOfEntries? textOfEntries
  set joined := "\n".intercalate entries
  by_cases he : joined = ""
  · simp only [he, if_true]
    rfl
  · simp only [he, if_false]
    by_cases hjoined : Held joined
    · rw [held?_eq_some_iff.mpr ⟨hjoined, rfl⟩]
      simp [he]
    · rw [held?_eq_none_iff.mpr hjoined]
      refine (held?_eq_none_iff.mpr fun hall => hjoined (held_of_le hall ?_)).symm
      rw [String.utf8ByteSize_append]
      exact Nat.le_add_right _ _

/-- An entry has no more bytes than the text of all. -/
theorem utf8ByteSize_le_textOfEntries {entries : List String} {entry : String}
    (h : entry ∈ entries) : entry.utf8ByteSize ≤ (textOfEntries entries).utf8ByteSize := by
  have hle := utf8ByteSize_le_intercalate h
  unfold textOfEntries
  dsimp only
  split
  · rename_i he
    rwa [he] at hle
  · rw [String.utf8ByteSize_append]
    omega

/-! ## Reports -/

/-- Entries are reported exactly if all of them can be held. -/
theorem Mode.report?_eq_ite (mode : Mode) (layout : Layout) (path : Path) (root : Node) :
    mode.report? layout path root =
      if ∀ entry ∈ mode.report layout path root, Held entry then
        some (mode.report layout path root)
      else none := by
  have hrender : (fun place : Place => layout.render? place.node) =
      held? ∘ fun place => layout.render place.node :=
    funext fun place => layout.render?_eq_held? place.node
  rw [← mapM_held?]
  cases mode with
  | nodes | any => rw [report?, hrender, ← List.mapM_map, report]
  | string | number | strings | numbers => rfl

namespace Options
variable {options : Options} {root : Node} {cache : PathCache} {before behind : List String}
  {source : String} {paths : List Path}

/-- The entries of a run: for each path what is reported of its matches. -/
def entries (options : Options) (root : Node) (paths : List Path) : List String :=
  paths.flatMap fun path => options.mode.report options.layout path root

/-- What a document is answered with when nothing is wrong: all entries, one a line. -/
def reportAll (options : Options) (root : Node) (paths : List Path) : String :=
  textOfEntries (options.entries root paths)

theorem entries_cons (options : Options) (root : Node) (path : Path) (paths : List Path) :
    options.entries root (path :: paths) =
      options.mode.report options.layout path root ++ options.entries root paths :=
  List.flatMap_cons

/-- A path that cannot be compiled stops the run. -/
theorem reportPaths_of_error (hc : cache.Coherent) {cause : PathError}
    (h : Path.read (some source) = .error cause) (behind : List String) :
    options.reportPaths root cache (source :: behind) =
      .error (.failure (.path source cause)) := by
  rw [reportPaths]
  obtain ⟨error, hp, hg⟩ | ⟨compiled, hp, hg⟩ := hc.get_eq source
  · obtain rfl := Except.error.inj (hp.symm.trans h)
    rw [hg]
  · cases hp.symm.trans h

/-- A path that can be compiled is reported, and the run goes on behind it. -/
theorem reportPaths_of_compiles (hc : cache.Coherent) {path : Path} (h : Compiles source path)
    (behind : List String) :
    options.reportPaths root cache (source :: behind) =
      if ∀ entry ∈ options.mode.report options.layout path root, Held entry then
        (options.reportPaths root (cache.get source).2 behind).map
          (options.mode.report options.layout path root ++ ·)
      else .error .overflow := by
  rw [reportPaths]
  obtain ⟨error, hp, hg⟩ | ⟨compiled, hp, hg⟩ := hc.get_eq source
  · exact absurd hp h.ne_error
  · obtain rfl : compiled.path = path := Compiles.eq hp h
    rw [hg]
    dsimp only
    rw [Mode.report?_eq_ite]
    by_cases hall : ∀ entry ∈ options.mode.report options.layout compiled.path root, Held entry
    · rw [if_pos hall, if_pos hall]
      cases options.reportPaths root (cache.get source).2 behind <;> rfl
    · rw [if_neg hall, if_neg hall]

/-- **Paths that can all be compiled are reported as a block.** -/
theorem reportPaths_append (options : Options) (root : Node) (hc : cache.Coherent)
    (h : List.Forall₂ Compiles before paths) (behind : List String) :
    ∃ cache' : PathCache, cache'.Coherent ∧
      options.reportPaths root cache (before ++ behind) =
        if ∀ entry ∈ options.entries root paths, Held entry then
          (options.reportPaths root cache' behind).map (options.entries root paths ++ ·)
        else .error .overflow := by
  induction h generalizing cache with
  | nil =>
    refine ⟨cache, hc, ?_⟩
    rw [List.nil_append, if_pos (by simp [entries])]
    cases options.reportPaths root cache behind <;> rfl
  | @cons source path before paths hp _ ih =>
    obtain ⟨cache', hc', he⟩ := ih (hc.get source)
    refine ⟨cache', hc', ?_⟩
    rw [List.cons_append, reportPaths_of_compiles hc hp, he, entries_cons]
    simp only [List.forall_mem_append]
    by_cases hfirst : ∀ entry ∈ options.mode.report options.layout path root, Held entry
    · by_cases hrest : ∀ entry ∈ options.entries root paths, Held entry
      · rw [if_pos hfirst, if_pos hrest, if_pos ⟨hfirst, hrest⟩]
        cases options.reportPaths root cache' behind with
        | error abort => rfl
        | ok others => simp [Except.map]
      · rw [if_pos hfirst, if_neg hrest, if_neg fun hall => hrest hall.2]
        rfl
    · rw [if_neg hfirst, if_neg fun hall => hfirst hall.1]

/-! ## Answers -/

variable {document : String}

/-- **A document is answered with all entries** if all paths can be compiled and the text can
be held; otherwise the run stops. -/
theorem answer_of_compiles (hd : Node.read options.limits (some document) = .ok root)
    (hp : List.Forall₂ Compiles options.paths paths) :
    options.answer document =
      if Held (options.reportAll root paths) then .ok (options.reportAll root paths)
      else .error .overflow := by
  obtain ⟨cache, -, he⟩ :=
    options.reportPaths_append root PathCache.coherent_empty hp []
  rw [List.append_nil] at he
  simp only [answer, hd, he]
  by_cases hall : Held (options.reportAll root paths)
  · have hentries : ∀ entry ∈ options.entries root paths, Held entry := fun entry hm =>
      held_of_le hall (utf8ByteSize_le_textOfEntries hm)
    rw [if_pos hentries, if_pos hall]
    simp only [reportPaths, Except.map, List.append_nil, textOfEntries?_eq_held?]
    rw [← reportAll, held?_eq_some_iff.mpr ⟨hall, rfl⟩]
  · rw [if_neg hall]
    by_cases hentries : ∀ entry ∈ options.entries root paths, Held entry
    · rw [if_pos hentries]
      simp only [reportPaths, Except.map, List.append_nil, textOfEntries?_eq_held?]
      rw [← reportAll, held?_eq_none_iff.mpr hall]
    · rw [if_neg hentries]

/-- A path that cannot be compiled is told, unless the run stops before it. -/
theorem answer_of_error (hd : Node.read options.limits (some document) = .ok root)
    (hs : options.paths = before ++ source :: behind)
    (hp : List.Forall₂ Compiles before paths) {cause : PathError}
    (h : Path.read (some source) = .error cause) :
    options.answer document =
      if ∀ entry ∈ options.entries root paths, Held entry then
        .error (.failure (.path source cause))
      else .error .overflow := by
  obtain ⟨cache, hc, he⟩ :=
    options.reportPaths_append root PathCache.coherent_empty hp (source :: behind)
  simp only [answer, hd, hs, he, reportPaths_of_error hc h]
  by_cases hentries : ∀ entry ∈ options.entries root paths, Held entry
  · rw [if_pos hentries, if_pos hentries]
    rfl
  · rw [if_neg hentries, if_neg hentries]

end Options
end TagPath
