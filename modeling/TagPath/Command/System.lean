import TagPath.Command.Files

/-! # The system around the command

The command meets files, standard input, standard output and the error stream through a
`System`, of which it knows which actions there are and that each of them may fail.  A
`World` holds what such a system holds, so that a run can be followed in it: the files and
the input, the faults that the system will show, and what was written and told so far.
-/
namespace TagPath

/-- What is told on the error stream. -/
inductive Notice where
  /-- Words about the arguments. -/
  | words (text : String)
  /-- An error, from what was being done down to the cause. -/
  | failure (chain : List String)
  /-- A text could not be held. -/
  | overflow
deriving Repr, DecidableEq

/-- The actions of a system. -/
structure System (m : Type → Type) where
  /-- All bytes of standard input. -/
  readInput : m (Except FileFault ByteArray)
  /-- All bytes of the file of a name. -/
  readFile : String → m (Except FileFault ByteArray)
  /-- Writes bytes to standard output. -/
  writeOutput : ByteArray → m (Except FileFault Unit)
  /-- Writes the file of a name, in place of what it held. -/
  writeFile : String → ByteArray → m (Except FileFault Unit)
  /-- Tells something on the error stream. -/
  tell : Notice → m Unit

/-- How writing comes to a stop. -/
structure Interruption where
  fault : FileFault
  /-- How many bytes are written by then; `none` if there is nothing to write to, so that
  the file stays as it was. -/
  written : Option Nat

/-- What a system holds.  Whether reading or writing is refused may depend on more than the
files, such as rights or room, and is decided by the name and the bytes. -/
structure World where
  files : Files := {}
  standardInput : Except FileFault ByteArray := .ok .empty
  /-- The files that cannot be read although they are there. -/
  unreadable : String → Option FileFault := fun _ => none
  /-- The files that cannot be written, or not completely. -/
  unwritable : String → ByteArray → Option Interruption := fun _ _ => none
  /-- What standard output does not take, or not completely. -/
  stalled : ByteArray → Option Interruption := fun _ => none
  /-- What stands on standard output. -/
  output : ByteArray := .empty
  /-- What was told on the error stream. -/
  told : List Notice := []

namespace World

/-- The bytes of the file of a name. -/
def readFile (world : World) (name : String) : Except FileFault ByteArray :=
  match world.unreadable name with
  | some fault => .error fault
  | none => world.files.read name

/-- Writes to standard output. -/
def writeOutput (world : World) (bytes : ByteArray) : Except FileFault Unit × World :=
  match world.stalled bytes with
  | none => (.ok (), { world with output := world.output ++ bytes })
  | some ⟨fault, written⟩ =>
    (.error fault, { world with output := world.output ++ bytes.extract 0 (written.getD 0) })

/-- Writes the file of a name, if it can be opened for that. -/
def writeFile (world : World) (name : String) (bytes : ByteArray) :
    Except FileFault Unit × World :=
  match world.unwritable name bytes with
  | none => match world.files.write name bytes with
    | .error fault => (.error fault, world)
    | .ok files => (.ok (), { world with files })
  | some ⟨fault, none⟩ => (.error fault, world)
  | some ⟨fault, some written⟩ => match world.files.write name (bytes.extract 0 written) with
    | .error fault => (.error fault, world)
    | .ok files => (.error fault, { world with files })

/-- Tells something behind what was told before. -/
def tell (world : World) (notice : Notice) : World :=
  { world with told := world.told ++ [notice] }

/-- The system in which a world is read and changed. -/
def system : System (StateM World) where
  readInput := return (← get).standardInput
  readFile name := return (← get).readFile name
  writeOutput bytes := modifyGet (·.writeOutput bytes)
  writeFile name bytes := modifyGet (·.writeFile name bytes)
  tell notice := modify (·.tell notice)

/-- What an action gives in a world, and the world afterwards. -/
def act {α : Type} (world : World) (action : StateM World α) : α × World :=
  (action.run world).run

theorem act_bind {α β : Type} (world : World) (action : StateM World α)
    (next : α → StateM World β) :
    world.act (action >>= next) = (world.act action).2.act (next (world.act action).1) := rfl

end World
end TagPath
