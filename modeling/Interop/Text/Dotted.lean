/-!
# Dotted names

A full name is a sequence of segments with dots between them.  Two full names are told apart by
what is left of them once the segments they share at the front are gone.
-/

namespace Interop.Text.Dotted

/-- The segments of a dotted name.  There is always one, perhaps empty. -/
def segments : List Char → List (List Char)
  | [] => [[]]
  | c :: cs =>
    if c = '.' then [] :: segments cs
    else match segments cs with
      | [] => [[c]]
      | s :: rest => (c :: s) :: rest

/-- Segments with dots between them. -/
def join (segs : List (List Char)) : List Char := ['.'].intercalate segs

/-- Take off the elements that both lists start with, but keep the last of each. -/
def dropShared {α : Type} [DecidableEq α] : List α → List α → List α × List α
  | a :: a' :: as, b :: b' :: bs =>
    if a = b then dropShared (a' :: as) (b' :: bs) else (a :: a' :: as, b :: b' :: bs)
  | as, bs => (as, bs)

/-- The ends of two dotted names that tell them apart. -/
def distinguish (own other : String) : String × String :=
  let (a, b) := dropShared (segments own.toList) (segments other.toList)
  (String.ofList (join a), String.ofList (join b))

end Interop.Text.Dotted
