/-! # Files

The files that the command can see, each under its way down from the topmost folder.
A folder is there when something is in it; the folder in which the command works is
there in any case, and so are those above it.  The topmost folder is its own parent.
A name is a way: its parts are parted by `/`, an empty part and `.` stay where they
are, and `..` goes up.  A name that starts with `/` starts at the topmost folder and
any other where the command works; one that ends with `/` can only name a folder.
-/
namespace TagPath

/-- Why a file cannot be read or written. -/
inductive FileFault where
  | notFound
  | notAFolder
  | isFolder
  | nameTooLong
  /-- The bytes are no text. -/
  | notText
  /-- Something else, by the system's number and in its words. -/
  | system (code : Nat) (words : String)
deriving Repr, DecidableEq

namespace FileFault

/-- The words of the system for a fault, with its number. -/
def systemReason (code : Nat) (words : String) : String :=
  words ++ " (os error " ++ toString code ++ ")"

/-- The fault in words. -/
def reason : FileFault → String
  | notFound => systemReason 2 "No such file or directory"
  | notAFolder => systemReason 20 "Not a directory"
  | isFolder => systemReason 21 "Is a directory"
  | nameTooLong => systemReason 36 "File name too long"
  | notText => "stream did not contain valid UTF-8"
  | system code words => systemReason code words

/-- The fault that the system tells by a number and in words. -/
def ofCode (code : Nat) (words : String) : FileFault :=
  if code = 2 then notFound
  else if code = 20 then notAFolder
  else if code = 21 then isFolder
  else if code = 36 then nameTooLong
  else system code words

end FileFault

/-- The text that some bytes encode. -/
def textOfBytes (bytes : ByteArray) : Except FileFault String :=
  match String.fromUTF8? bytes with
  | none => .error .notText
  | some text => .ok text

/-- The way from the topmost folder to a file or folder. -/
abbrev FileKey := List String

/-- Files with their bytes, and the folder in which the command works. -/
structure Files where
  entries : List (FileKey × ByteArray) := []
  home : FileKey := []

namespace Files

/-- The most bytes in a part of a name. -/
def partBound : Nat := 255

/-- The most bytes in a name. -/
def nameBound : Nat := 4095

/-- The bytes of the file at a key. -/
def find? (files : Files) (key : FileKey) : Option ByteArray :=
  (files.entries.find? (·.1 == key)).map (·.2)

/-- Whether there is a folder at a key. -/
def isFolder (files : Files) (key : FileKey) : Bool :=
  key.isPrefixOf files.home ||
    files.entries.any fun entry => key.isPrefixOf entry.1 && entry.1 != key

/-- The parts of a name. -/
def parts (name : String) : List String := (name.toList.splitOn '/').map String.ofList

/-- Where the way of a name starts. -/
def start (files : Files) (name : String) : FileKey :=
  if name.toList.head? = some '/' then [] else files.home

/-- Goes one part on from a key, where there must be a folder. -/
def goOn (files : Files) (key : FileKey) (part : String) : Except FileFault FileKey :=
  if (files.find? key).isSome then .error .notAFolder
  else if !files.isFolder key then .error .notFound
  else if part = "" ∨ part = "." then .ok key
  else if part = ".." then .ok key.dropLast
  else if partBound < part.utf8ByteSize then .error .nameTooLong
  else .ok (key ++ [part])

/-- Goes on from a key along some parts. -/
def goAlong (files : Files) (key : FileKey) : List String → Except FileFault FileKey
  | [] => .ok key
  | part :: rest => match files.goOn key part with
    | .error fault => .error fault
    | .ok key => files.goAlong key rest

/-- The bytes of the file of a name. -/
def read (files : Files) (name : String) : Except FileFault ByteArray :=
  if nameBound < name.utf8ByteSize then .error .nameTooLong
  else match files.goAlong (files.start name) (parts name) with
    | .error fault => .error fault
    | .ok key => match files.find? key with
      | some bytes => .ok bytes
      | none => .error (if files.isFolder key then .isFolder else .notFound)

/-- Puts bytes at a key, in place of what was there. -/
def put (files : Files) (key : FileKey) (bytes : ByteArray) : Files :=
  { files with entries := (key, bytes) :: files.entries.filter (·.1 != key) }

/-- The key at which a file of a name is written: its folder must be there, and it
must not name a folder itself.  A name that ends with `/` does, whatever stands
before the `/`, so its last part is not looked at. -/
def target (files : Files) (name : String) : Except FileFault FileKey :=
  if nameBound < name.utf8ByteSize then .error .nameTooLong
  else
    let all := parts name
    let named := (all.reverse.dropWhile (· == "")).reverse
    let last := if named.length < all.length then "" else named.getLast?.getD ""
    match files.goAlong (files.start name) named.dropLast with
    | .error fault => .error fault
    | .ok folder => match files.goOn folder last with
      | .error fault => .error fault
      | .ok key => if files.isFolder key then .error .isFolder else .ok key

/-- Writes the file of a name, which is made if it is not there. -/
def write (files : Files) (name : String) (bytes : ByteArray) : Except FileFault Files :=
  match files.target name with
  | .error fault => .error fault
  | .ok key => .ok (files.put key bytes)

/-- What was put at a key is found there. -/
theorem find?_put_self (files : Files) (key : FileKey) (bytes : ByteArray) :
    (files.put key bytes).find? key = some bytes := by
  simp [put, find?]

/-- Putting something at a key leaves all other files as they were. -/
theorem find?_put_of_ne (files : Files) {key other : FileKey} (h : other ≠ key)
    (bytes : ByteArray) : (files.put key bytes).find? other = files.find? other := by
  have hk : (key == other) = false := by simpa using fun he => h he.symm
  simp only [put, find?, List.find?_cons, hk, List.find?_filter]
  congr 2
  funext entry
  by_cases he : entry.1 = other
  · simp [he, h]
  · simp [he]

end Files
end TagPath
