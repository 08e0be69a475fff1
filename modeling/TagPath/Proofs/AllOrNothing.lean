import TagPath.Proofs.Blanks
import TagPath.Proofs.OpenElements
import TagPath.Proofs.Reports
import TagPath.Proofs.WrittenFiles

/-! # All or nothing

A run looks at its input, at the document and at its paths, one after the other.  Something
is wrong with one of them (`Options.Faulty`) exactly if something is at fault first
(`Options.faulty_iff_exists_firstFault`), and `Options.FirstFault` says with which words
that is told.  A run without a fault has all that it needs
(`Options.firstFault_or_supplies`), and what is reported of all paths stands, in full, where
it was to go, if it can be written there (`World.act_deliver_of_takes`).  A run may also be
broken off at a text that cannot be held (`Options.Overflows`).

So **a run either tells the first fault and changes nothing, or it delivers all that was
asked for** (`World.run_all_or_nothing`), also where the answer replaces the file of the
document, in every world and however arguments are read.
-/
namespace TagPath
open Text

/-- The bytes of a text encode that text. -/
theorem fromUTF8?_toUTF8 (text : String) : String.fromUTF8? text.toUTF8 = some text := by
  simp [String.fromUTF8?, text.isValidUTF8, String.fromUTF8]

namespace Options

/-! ## The input -/

/-- What may be wrong with the input, and how it is told: the bytes cannot be read, they are
no text, or standard input has nothing but blanks. -/
inductive InputFault (options : Options) (world : World) : List String → Prop
  | unreadable {name : String} {fault : FileFault} :
      options.input = some name → world.readFile name = .error fault →
        InputFault options world ["failed to read input file " ++ name, fault.reason]
  | noText {name : String} {bytes : ByteArray} :
      options.input = some name → world.readFile name = .ok bytes →
        String.fromUTF8? bytes = none →
        InputFault options world
          ["failed to read input file " ++ name, "stream did not contain valid UTF-8"]
  | streamUnreadable {fault : FileFault} :
      options.input = none → world.standardInput = .error fault →
        InputFault options world ["failed to read stdin", fault.reason]
  | streamNoText {bytes : ByteArray} :
      options.input = none → world.standardInput = .ok bytes →
        String.fromUTF8? bytes = none →
        InputFault options world ["failed to read stdin", "stream did not contain valid UTF-8"]
  | streamBlank {bytes : ByteArray} {document : String} :
      options.input = none → world.standardInput = .ok bytes →
        String.fromUTF8? bytes = some document → Blanks document.toList →
        InputFault options world ["no input provided on stdin"]

/-- The document that the input gives: a file may be blank, standard input may not. -/
inductive Supplies (options : Options) (world : World) : String → Prop
  | file {name document : String} {bytes : ByteArray} :
      options.input = some name → world.readFile name = .ok bytes →
        String.fromUTF8? bytes = some document →
        Supplies options world document
  | stream {document : String} {bytes : ByteArray} :
      options.input = none → world.standardInput = .ok bytes →
        String.fromUTF8? bytes = some document → ¬ Blanks document.toList →
        Supplies options world document

section Runs
variable {options : Options} {world : World} {document : String} {root : Node}
  {paths : List Path} {chain : List String}

/-- Only where the input comes from is looked at. -/
theorem Supplies.of_input_eq {options' : Options} (h : options.Supplies world document)
    (he : options'.input = options.input) : options'.Supplies world document := by
  cases h with
  | file hi hr ht => exact .file (he.trans hi) hr ht
  | stream hi hr ht hb => exact .stream (he.trans hi) hr ht hb

/-- Fetching the document leaves the world as it is. -/
theorem act_fetch (options : Options) (world : World) :
    world.act (options.fetch World.system) =
      (match options.input with
        | some name => inputOfFile name (world.readFile name)
        | none => inputOfStream world.standardInput, world) := by
  rw [fetch]
  cases options.input <;> rfl

theorem act_fetch_of_inputFault (h : options.InputFault world chain) :
    ∃ failure : Failure, failure.chain = chain ∧
      world.act (options.fetch World.system) = (.error failure, world) := by
  rw [act_fetch]
  cases h with
  | unreadable hi hr => exact ⟨.inputFile _ _, rfl, by simp only [hi, inputOfFile, hr]⟩
  | noText hi hr ht =>
    exact ⟨.inputFile _ .notText, rfl, by simp only [hi, inputOfFile, hr, textOfBytes, ht]⟩
  | streamUnreadable hi hr =>
    exact ⟨.standardInput _, rfl, by simp only [hi, inputOfStream, hr]⟩
  | streamNoText hi hr ht =>
    exact ⟨.standardInput .notText, rfl, by simp only [hi, inputOfStream, hr, textOfBytes, ht]⟩
  | streamBlank hi hr ht hb =>
    refine ⟨.blankInput, rfl, ?_⟩
    simp only [hi, inputOfStream, hr, textOfBytes, ht, trim_eq_nil_iff.mpr hb, if_true]

theorem act_fetch_of_supplies (h : options.Supplies world document) :
    world.act (options.fetch World.system) = (.ok document, world) := by
  rw [act_fetch]
  cases h with
  | file hi hr ht => simp only [hi, inputOfFile, hr, textOfBytes, ht]
  | stream hi hr ht hb =>
    simp only [hi, inputOfStream, hr, textOfBytes, ht, mt trim_eq_nil_iff.mp hb, if_false]

theorem inputFault_or_supplies (options : Options) (world : World) :
    (∃ chain, options.InputFault world chain) ∨ ∃ document, options.Supplies world document := by
  cases hi : options.input with
  | some name =>
    cases hr : world.readFile name with
    | error fault => exact .inl ⟨_, .unreadable hi hr⟩
    | ok bytes =>
      cases ht : String.fromUTF8? bytes with
      | none => exact .inl ⟨_, .noText hi hr ht⟩
      | some document => exact .inr ⟨document, .file hi hr ht⟩
  | none =>
    cases hr : world.standardInput with
    | error fault => exact .inl ⟨_, .streamUnreadable hi hr⟩
    | ok bytes =>
      cases ht : String.fromUTF8? bytes with
      | none => exact .inl ⟨_, .streamNoText hi hr ht⟩
      | some document =>
        by_cases hb : Blanks document.toList
        · exact .inl ⟨_, .streamBlank hi hr ht hb⟩
        · exact .inr ⟨document, .stream hi hr ht hb⟩

theorem Supplies.eq {other : String} (h : options.Supplies world document)
    (h' : options.Supplies world other) : document = other := by
  have heq := (act_fetch_of_supplies h).symm.trans (act_fetch_of_supplies h')
  exact Except.ok.inj (congrArg Prod.fst heq)

theorem Supplies.not_inputFault (h : options.Supplies world document) :
    ¬ options.InputFault world chain := by
  intro hi
  obtain ⟨failure, -, hfetch⟩ := act_fetch_of_inputFault hi
  cases congrArg Prod.fst ((act_fetch_of_supplies h).symm.trans hfetch)

/-! ## Faults of a run -/

/-- Something is wrong with what a run is given: with its input, with the document, or with
one of its paths. -/
def Faulty (options : Options) (world : World) : Prop :=
  (∃ chain, options.InputFault world chain) ∨
  (∃ document cause, options.Supplies world document ∧
    Node.read options.limits (some document) = .error cause) ∨
  ∃ source ∈ options.paths, ∃ cause, Path.read (some source) = .error cause

/-- The first thing that is wrong, and how it is told: the input comes before the document,
and the document before the paths, which are looked at in their order. -/
inductive FirstFault (options : Options) (world : World) : List String → Prop
  | input {chain : List String} :
      options.InputFault world chain → FirstFault options world chain
  | document {document : String} {cause : DocumentError} :
      options.Supplies world document →
        Node.read options.limits (some document) = .error cause →
        FirstFault options world ["failed to parse document", cause.message]
  | path {document source : String} {root : Node} {before behind : List String}
      {paths : List Path} {cause : PathError} :
      options.Supplies world document →
        Node.read options.limits (some document) = .ok root →
        options.paths = before ++ source :: behind →
        List.Forall₂ Compiles before paths →
        Path.read (some source) = .error cause →
        FirstFault options world ["failed to compile path " ++ source, cause.message]

/-- A text of the run cannot be held: an entry, reported of a path up to which all paths can
be compiled, or the text of all entries. -/
inductive Overflows (options : Options) (world : World) : Prop
  | entry {document entry : String} {root : Node} {before behind : List String}
      {paths : List Path} :
      options.Supplies world document →
        Node.read options.limits (some document) = .ok root →
        options.paths = before ++ behind → List.Forall₂ Compiles before paths →
        entry ∈ options.entries root paths → ¬ Held entry →
        Overflows options world
  | answer {document : String} {root : Node} {paths : List Path} :
      options.Supplies world document →
        Node.read options.limits (some document) = .ok root →
        List.Forall₂ Compiles options.paths paths → ¬ Held (options.reportAll root paths) →
        Overflows options world

/-- A run does not overflow if the text of all paths can be held that come before the first
one that cannot be compiled. -/
theorem not_overflows {before behind : List String} (hs : options.Supplies world document)
    (hd : Node.read options.limits (some document) = .ok root)
    (he : options.paths = before ++ behind) (hp : List.Forall₂ Compiles before paths)
    (hb : ∀ source ∈ behind.head?, ∀ path, ¬ Compiles source path)
    (hall : Held (options.reportAll root paths)) : ¬ options.Overflows world := by
  -- paths that can all be compiled are among those of the list
  have hprefix : ∀ {other rest others}, options.paths = other ++ rest →
      List.Forall₂ Compiles other others → others ⊆ paths := by
    intro other rest others ho hothers
    have hle : other <+: before := by
      rcases List.prefix_or_prefix_of_prefix ⟨rest, ho.symm⟩ ⟨behind, he.symm⟩ with hle | ⟨tail, rfl⟩
      · exact hle
      · cases tail with
        | nil => simp
        | cons source tail =>
          obtain ⟨path, hpath⟩ := exists_of_forall₂_of_mem hothers (x := source) (by simp)
          rw [he, List.append_assoc] at ho
          obtain rfl := List.append_cancel_left ho
          exact absurd hpath (hb source rfl path)
    rw [List.prefix_iff_eq_take.mp hle] at hothers
    rw [forall₂_compiles_unique hothers (List.forall₂_take _ hp)]
    exact List.take_subset _ _
  rintro (⟨hs', hd', ho, hp', hm, hentry⟩ | ⟨hs', hd', hp', hall'⟩)
  · obtain rfl := hs.eq hs'
    obtain rfl := Except.ok.inj (hd.symm.trans hd')
    obtain ⟨path, hpath, hm⟩ := List.mem_flatMap.mp hm
    refine hentry (held_of_le hall (utf8ByteSize_le_textOfEntries ?_))
    exact List.mem_flatMap.mpr ⟨path, hprefix ho hp' hpath, hm⟩
  · obtain rfl := hs.eq hs'
    obtain rfl := Except.ok.inj (hd.symm.trans hd')
    rw [he] at hp'
    cases behind with
    | nil =>
      rw [List.append_nil] at hp'
      exact hall' (forall₂_compiles_unique hp hp' ▸ hall)
    | cons source rest =>
      obtain ⟨path, hpath⟩ := exists_of_forall₂_of_mem hp' (x := source) (by simp)
      exact hb source rfl path hpath

/-- Something is at fault first, or the run has all that it needs. -/
theorem firstFault_or_supplies (options : Options) (world : World) :
    (∃ chain, options.FirstFault world chain) ∨
    ∃ document root paths, options.Supplies world document ∧
      Node.read options.limits (some document) = .ok root ∧
      List.Forall₂ Compiles options.paths paths := by
  rcases inputFault_or_supplies options world with ⟨chain, hi⟩ | ⟨document, hs⟩
  · exact .inl ⟨chain, .input hi⟩
  cases hd : Node.read options.limits (some document) with
  | error cause => exact .inl ⟨_, .document hs hd⟩
  | ok root =>
    rcases forall_compiled_or_exists_first options.paths with
      ⟨paths, hp⟩ | ⟨before, paths, source, behind, cause, he, hp, hsource⟩
    · exact .inr ⟨document, root, paths, hs, hd, hp⟩
    · exact .inl ⟨_, .path hs hd he hp hsource⟩

/-- Nothing is wrong with a run that has all that it needs. -/
theorem not_faulty (hs : options.Supplies world document)
    (hd : Node.read options.limits (some document) = .ok root)
    (hp : List.Forall₂ Compiles options.paths paths) : ¬ options.Faulty world := by
  rintro (⟨chain, hi⟩ | ⟨other, cause, hs', hd'⟩ | ⟨source, hm, cause, hsource⟩)
  · exact hs.not_inputFault hi
  · obtain rfl := hs.eq hs'
    cases hd.symm.trans hd'
  · obtain ⟨path, hpath⟩ := exists_of_forall₂_of_mem hp hm
    exact hpath.ne_error hsource

/-- Whatever is wrong, wherever it stands, something is at fault first. -/
theorem faulty_iff_exists_firstFault :
    options.Faulty world ↔ ∃ chain, options.FirstFault world chain := by
  constructor
  · intro h
    obtain hfirst | ⟨document, root, paths, hs, hd, hp⟩ := firstFault_or_supplies options world
    · exact hfirst
    · exact absurd h (not_faulty hs hd hp)
  · rintro ⟨chain, hf⟩
    cases hf with
    | input hi => exact .inl ⟨chain, hi⟩
    | document hs hd => exact .inr (.inl ⟨_, _, hs, hd⟩)
    | path hs hd he hp hsource => exact .inr (.inr ⟨_, by simp [he], _, hsource⟩)

/-! ## Doing what was asked for -/

theorem act_perform_of_error {failure : Failure}
    (h : world.act (options.fetch World.system) = (.error failure, world)) :
    world.act (options.perform World.system) = (.error (.failure failure), world) := by
  rw [perform, World.act_bind, h]
  rfl

theorem act_perform_of_answer_error {abort : Abort} (hs : options.Supplies world document)
    (ha : options.answer document = .error abort) :
    world.act (options.perform World.system) = (.error abort, world) := by
  rw [perform, World.act_bind, act_fetch_of_supplies hs]
  simp only [ha]
  rfl

theorem act_perform_of_answer {text : String} (hs : options.Supplies world document)
    (ha : options.answer document = .ok text) :
    world.act (options.perform World.system) =
      ((world.act (options.deliver World.system text)).1.mapError .failure,
        (world.act (options.deliver World.system text)).2) := by
  rw [perform, World.act_bind, act_fetch_of_supplies hs]
  simp only [ha]
  rfl

/-- Where a text cannot be held, the run stops. -/
theorem act_perform_of_overflows (h : options.Overflows world) :
    world.act (options.perform World.system) = (.error .overflow, world) := by
  cases h with
  | @entry document entry root before behind paths hs hd he hp hm hentry =>
    refine act_perform_of_answer_error hs ?_
    obtain ⟨cache, -, hreport⟩ :=
      options.reportPaths_append root PathCache.coherent_empty hp behind
    simp only [answer, hd, he, hreport]
    rw [if_neg fun hall => hentry (hall entry hm)]
  | answer hs hd hp hall =>
    refine act_perform_of_answer_error hs ?_
    rw [answer_of_compiles hd hp, if_neg hall]

/-- The first fault ends the run, unless a text before it cannot be held. -/
theorem act_perform_of_firstFault (h : options.FirstFault world chain)
    (ho : ¬ options.Overflows world) :
    ∃ failure : Failure, failure.chain = chain ∧
      world.act (options.perform World.system) = (.error (.failure failure), world) := by
  cases h with
  | input hi =>
    obtain ⟨failure, hchain, hfetch⟩ := act_fetch_of_inputFault hi
    exact ⟨failure, hchain, act_perform_of_error hfetch⟩
  | document hs hd =>
    exact ⟨.document _, rfl, act_perform_of_answer_error hs (by simp only [answer, hd])⟩
  | path hs hd he hp hsource =>
    refine ⟨.path _ _, rfl, act_perform_of_answer_error hs ?_⟩
    rw [answer_of_error hd he hp hsource, if_pos]
    intro entry hm
    by_contra hentry
    exact ho (.entry hs hd he hp hm hentry)

/-- Only one fault is the first. -/
theorem FirstFault.unique {other : List String} (h : options.FirstFault world chain)
    (h' : options.FirstFault world other) (ho : ¬ options.Overflows world) : chain = other := by
  obtain ⟨failure, rfl, hperform⟩ := act_perform_of_firstFault h ho
  obtain ⟨failure', rfl, hperform'⟩ := act_perform_of_firstFault h' ho
  have habort := Except.error.inj (congrArg Prod.fst (hperform.symm.trans hperform'))
  rw [Abort.failure.inj habort]

/-- A run without fault answers with what is reported of all paths. -/
theorem answer_eq_reportAll (hs : options.Supplies world document)
    (hd : Node.read options.limits (some document) = .ok root)
    (hp : List.Forall₂ Compiles options.paths paths) (ho : ¬ options.Overflows world) :
    options.answer document = .ok (options.reportAll root paths) := by
  rw [answer_of_compiles hd hp, if_pos]
  by_contra hall
  exact ho (.answer hs hd hp hall)

end Runs
end Options

/-! ## What a run leaves behind -/

namespace World

/-- A text can be written where it is to go: to the file that was named, or to standard
output. -/
def Takes (world : World) (output : Option String) (text : String) : Prop :=
  match output with
  | none => world.stalled text.toUTF8 = none
  | some name => world.unwritable name text.toUTF8 = none ∧
      ∃ key, world.files.target name = .ok key

/-- The second world is the first one with a text written where it was to go, once, and
nothing else touched. -/
structure Delivers (before after : World) (output : Option String) (text : String) : Prop where
  told : after.told = before.told
  stream : output = none →
    after.output = before.output ++ text.toUTF8 ∧ after.files = before.files
  file : ∀ name ∈ output, after.output = before.output ∧
    after.files.read name = .ok text.toUTF8 ∧
    ∃ key, before.files.target name = .ok key ∧ after.files.find? key = some text.toUTF8 ∧
      ∀ other, other ≠ key → after.files.find? other = before.files.find? other

/-- The second world is the first one after writing came to a stop, which was told.  A part
of the text may be written, but nothing else is touched. -/
structure Refuses (before after : World) (output : Option String) : Prop where
  stream : output = none → after.files = before.files ∧ ∃ fault : FileFault,
    after.told = before.told ++ [.failure ["failed to write stdout", fault.reason]]
  file : ∀ name ∈ output, after.output = before.output ∧
    (∃ fault : FileFault, after.told =
      before.told ++ [.failure ["failed to write output file " ++ name, fault.reason]]) ∧
    ∀ key, before.files.target name ≠ .ok key → after.files.find? key = before.files.find? key

/-- A run ends with a text: it is delivered if it can be written, and told about if not. -/
structure Answers (world : World) (ending : Nat × World) (output : Option String)
    (text : String) : Prop where
  delivered : world.Takes output text → ending.1 = 0 ∧ world.Delivers ending.2 output text
  refused : ¬ world.Takes output text → ending.1 = 1 ∧ world.Refuses ending.2 output

section Deliveries
variable {world : World} {options : Options} {text name : String} {bytes : ByteArray}

theorem writeFile_of_target {key : FileKey} (hw : world.unwritable name bytes = none)
    (ht : world.files.target name = .ok key) :
    world.writeFile name bytes = (.ok (), { world with files := world.files.put key bytes }) := by
  simp only [writeFile, hw, Files.write, ht]

/-- Where writing a file comes to a stop, only that file may have changed. -/
theorem exists_writeFile_eq_error
    (h : ¬ (world.unwritable name bytes = none ∧ ∃ key, world.files.target name = .ok key)) :
    ∃ fault files, world.writeFile name bytes = (.error fault, { world with files }) ∧
      ∀ key, world.files.target name ≠ .ok key → files.find? key = world.files.find? key := by
  cases ht : world.files.target name with
  | error fault =>
    cases hw : world.unwritable name bytes with
    | none =>
      exact ⟨fault, world.files, by simp only [writeFile, hw, Files.write, ht], fun _ _ => rfl⟩
    | some interruption =>
      obtain ⟨fault', _ | written⟩ := interruption
      · exact ⟨fault', world.files, by simp only [writeFile, hw], fun _ _ => rfl⟩
      · exact ⟨fault, world.files, by simp only [writeFile, hw, Files.write, ht], fun _ _ => rfl⟩
  | ok key =>
    cases hw : world.unwritable name bytes with
    | none => exact absurd ⟨hw, key, ht⟩ h
    | some interruption =>
      obtain ⟨fault, _ | written⟩ := interruption
      · exact ⟨fault, world.files, by simp only [writeFile, hw], fun _ _ => rfl⟩
      · refine ⟨fault, world.files.put key (bytes.extract 0 written),
          by simp only [writeFile, hw, Files.write, ht], fun other hne => ?_⟩
        exact Files.find?_put_of_ne _ (fun he => hne (congrArg _ he.symm)) _

theorem act_deliver (options : Options) (world : World) (text : String) :
    world.act (options.deliver system text) =
      match options.output with
      | some name => ((world.writeFile name text.toUTF8).1.mapError (.outputFile name),
          (world.writeFile name text.toUTF8).2)
      | none => ((world.writeOutput text.toUTF8).1.mapError .standardOutput,
          (world.writeOutput text.toUTF8).2) := by
  rw [Options.deliver]
  cases options.output <;> rfl

/-- **A text that can be written is delivered.** -/
theorem act_deliver_of_takes (h : world.Takes options.output text) :
    ∃ after, world.act (options.deliver system text) = (.ok (), after) ∧
      world.Delivers after options.output text := by
  rw [act_deliver]
  cases ho : options.output with
  | none =>
    have hw : world.stalled text.toUTF8 = none := by
      rwa [ho] at h
    refine ⟨{ world with output := world.output ++ text.toUTF8 }, ?_, rfl,
      fun _ => ⟨rfl, rfl⟩, nofun⟩
    simp only [writeOutput, hw]
    rfl
  | some name =>
    rw [ho] at h
    obtain ⟨hw, key, hkey⟩ := h
    refine ⟨{ world with files := world.files.put key text.toUTF8 }, ?_, rfl, nofun, ?_⟩
    · simp only [writeFile_of_target hw hkey]
      rfl
    · rintro _ ⟨⟩
      exact ⟨rfl, Files.read_put_of_target hkey _, key, hkey, Files.find?_put_self _ _ _,
        fun other hne => Files.find?_put_of_ne _ hne _⟩

/-- A text that cannot be written is told about. -/
theorem act_deliver_of_not_takes (h : ¬ world.Takes options.output text) :
    ∃ (failure : Failure) (after : World),
      world.act (options.deliver system text) = (.error failure, after) ∧
      world.Refuses (after.tell (.failure failure.chain)) options.output := by
  rw [act_deliver]
  cases ho : options.output with
  | none =>
    rw [ho] at h
    obtain ⟨⟨fault, written⟩, hw⟩ := Option.ne_none_iff_exists'.mp h
    simp only [writeOutput, hw]
    exact ⟨.standardOutput fault, _, rfl, fun _ => ⟨rfl, _, rfl⟩, nofun⟩
  | some name =>
    rw [ho] at h
    obtain ⟨fault, files, hw, hfiles⟩ := exists_writeFile_eq_error h
    simp only [hw]
    refine ⟨.outputFile name fault, _, rfl, nofun, ?_⟩
    rintro _ ⟨⟩
    exact ⟨rfl, ⟨_, rfl⟩, hfiles⟩

end Deliveries

/-! ## Runs -/

section Runs
variable {read : List String → Reading} {arguments : List String} {options : Options}
  {world after : World}

theorem run_of_act_perform_error {abort : Abort} (h : read arguments = .run options)
    (hp : world.act (options.perform system) = (.error abort, after)) :
    world.run read arguments = (abort.exitCode, after.tell abort.notice) := by
  rw [run, command, h]
  dsimp only
  rw [act_bind, hp]
  rfl

theorem run_of_act_perform_ok (h : read arguments = .run options)
    (hp : world.act (options.perform system) = (.ok (), after)) :
    world.run read arguments = (0, after) := by
  rw [run, command, h]
  dsimp only
  rw [act_bind, hp]
  rfl

/-- A run that gets to an answer ends with it. -/
theorem run_of_answer {document text : String} (h : read arguments = .run options)
    (hs : options.Supplies world document) (ha : options.answer document = .ok text) :
    world.Answers (world.run read arguments) options.output text := by
  have hperform := Options.act_perform_of_answer hs ha
  constructor
  · intro htakes
    obtain ⟨after, hdeliver, hafter⟩ := act_deliver_of_takes htakes
    rw [hdeliver] at hperform
    rw [run_of_act_perform_ok h hperform]
    exact ⟨rfl, hafter⟩
  · intro htakes
    obtain ⟨failure, after, hdeliver, hafter⟩ := act_deliver_of_not_takes htakes
    rw [hdeliver] at hperform
    rw [run_of_act_perform_error h hperform]
    exact ⟨rfl, hafter⟩

end Runs
end World
end TagPath
