import TagPath.Document.Error

/-! # Limits

A reader bounds the bytes of a document and the number of elements that are open at
once.  The second bound is kept by a counter: entering an element raises it,
leaving lowers it.  An element that is refused has been entered all the same, so the
counter of a reader that gave up stays raised by the elements open at that moment.
-/
namespace TagPath

/-- What a reader accepts. -/
structure Limits where
  /-- How many elements may be open at once. -/
  maxDepth : Nat := 512
  /-- How many bytes a document may have. -/
  maxSize : Nat := 10485760
deriving Repr, DecidableEq, Inhabited

/-- Where reading stopped: the cause, and the counter of open elements as it stood. -/
structure Halt where
  cause : DocumentError
  depth : Nat
deriving Repr, DecidableEq

namespace Limits

/-- Refuses documents with too many bytes. -/
def admitSize (limits : Limits) (size : Nat) : Except DocumentError Unit :=
  if limits.maxSize < size then .error (.maxSizeExceeded limits.maxSize) else .ok ()

/-- Enters an element: the counter after it, or the halt if it is one too many. -/
def enter (limits : Limits) (depth : Nat) : Except Halt Nat :=
  if limits.maxDepth < depth + 1 then .error ⟨.maxDepthExceeded limits.maxDepth, depth + 1⟩
  else .ok (depth + 1)

theorem admitSize_eq_ok_iff {limits : Limits} {size : Nat} :
    limits.admitSize size = .ok () ↔ size ≤ limits.maxSize := by
  unfold admitSize
  split <;> simp <;> omega

/-- An element is admitted exactly if the counter stays within the limit. -/
theorem enter_eq_ok_iff {limits : Limits} {depth depth' : Nat} :
    limits.enter depth = .ok depth' ↔ depth' = depth + 1 ∧ depth + 1 ≤ limits.maxDepth := by
  unfold enter
  split <;> simp <;> omega

end Limits

/-- Leaves an element; a counter at zero stays there. -/
def leave (depth : Nat) : Nat := depth - 1

/-- Leaving undoes an entry that was admitted. -/
theorem leave_of_enter {limits : Limits} {depth depth' : Nat}
    (h : limits.enter depth = .ok depth') : leave depth' = depth := by
  rw [(Limits.enter_eq_ok_iff.1 h).1]
  rfl

end TagPath
